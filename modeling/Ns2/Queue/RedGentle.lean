import Ns2.Lib.Run
import Ns2.Queue.RedDctcp

/-!
# The drop probability of random early detection

* `dropProb` — the drop probability as a map of the average queue size.
* `modify_p_checked` — `modify_p`, with nothing for a division by zero.
* `Shape` — the map grows, and it and what `modify_p` makes of it are probabilities.
* `shape_iff` — the map has this shape if `cur_max_p` is not above the value at the start, which
  the coefficients of the gentle part are computed from, and only then.
* `drop_probability_iff` — **the map has this shape in a run if adaptation keeps `cur_max_p` there,
  and only then.**
-/

namespace Ns2.Queue.RED

variable {c : Config} {e : Edp} {v : Edv} {s : REDQueue} {pkt : Packet} {p : ℚ}
  {count count_bytes mean size : ℤ} {bytes wait : Bool}

/-! ## The map -/

/-- The drop probability as a map of the average queue size. -/
def dropProb (e : Edp) (v : Edv) (a : ℚ) : ℚ :=
  calculate_p_new a e.th_max e.gentle v.v_a v.v_b v.v_c v.v_d v.cur_max_p

/-- A quotient; nothing for a division by zero. -/
def checkedDiv (x y : ℚ) : Option ℚ := if y = 0 then none else some (x / y)

theorem checkedDiv_of_ne {x y : ℚ} (h : y ≠ 0) : checkedDiv x y = some (x / y) := if_neg h

/-! ## The count-dependent quotient -/

/-- The number of packets since the last drop, of which `modify_p` makes the quotient. -/
def countSince (count count_bytes : ℤ) (bytes : Bool) (mean_pktsize : ℤ) : Option ℚ :=
  if bytes then
    if mean_pktsize = 0 then none else some ((count_bytes.tdiv mean_pktsize : ℤ) : ℚ)
  else some (count : ℚ)

/-- The quotient of `modify_p`. -/
def spread (n p : ℚ) (wait : Bool) : Option ℚ :=
  if wait then
    if n * p < 1 then some 0
    else if n * p < 2 then checkedDiv p (2 - n * p)
    else some 1
  else
    if n * p < 1 then checkedDiv p (1 - n * p)
    else some 1

/-- The share of a packet of `size` bytes. -/
def shareOf (p : ℚ) (bytes : Bool) (mean_pktsize size : ℤ) : Option ℚ :=
  if bytes ∧ p < 1 then checkedDiv (p * size) mean_pktsize else some p

/-- `modify_p`, with nothing for a division by zero. -/
def modify_p_checked (p : ℚ) (count count_bytes : ℤ) (bytes : Bool) (mean_pktsize : ℤ)
    (wait : Bool) (size : ℤ) : Option ℚ :=
  (countSince count count_bytes bytes mean_pktsize).bind fun n =>
    (spread n p wait).bind fun p =>
      (shareOf p bytes mean_pktsize size).map fun p => if p > 1 then 1 else p

theorem spread_spec (n : ℚ) (wait : Bool) (hp : 0 ≤ p) :
    ∃ x, spread n p wait = some x ∧ 0 ≤ x ∧
      x = if wait then if n * p < 1 then 0 else if n * p < 2 then p / (2 - n * p) else 1
        else if n * p < 1 then p / (1 - n * p) else 1 := by
  unfold spread
  split_ifs with hwait h1 h2 h1
  · exact ⟨0, rfl, le_refl 0, rfl⟩
  · exact ⟨_, checkedDiv_of_ne (by linarith), div_nonneg hp (by linarith), rfl⟩
  · exact ⟨1, rfl, zero_le_one, rfl⟩
  · exact ⟨_, checkedDiv_of_ne (by linarith), div_nonneg hp (by linarith), rfl⟩
  · exact ⟨1, rfl, zero_le_one, rfl⟩

theorem shareOf_spec (bytes : Bool) (hp : 0 ≤ p) (hmean : 0 < mean) (hsize : 0 ≤ size) :
    ∃ x, shareOf p bytes mean size = some x ∧ 0 ≤ x ∧
      x = if bytes ∧ p < 1 then p * size / mean else p := by
  have hmean' : (0 : ℚ) < mean := by exact_mod_cast hmean
  have hsize' : (0 : ℚ) ≤ size := by exact_mod_cast hsize
  unfold shareOf
  split_ifs
  · exact ⟨_, checkedDiv_of_ne hmean'.ne', div_nonneg (mul_nonneg hp hsize') hmean'.le, rfl⟩
  · exact ⟨p, rfl, hp, rfl⟩

/-- `modify_p` divides by no zero, and makes a probability. -/
theorem modify_p_spec (hp : 0 ≤ p) (hmean : 0 < mean) (hsize : 0 ≤ size) :
    modify_p_checked p count count_bytes bytes mean wait size =
        some (modify_p p count count_bytes bytes mean wait size) ∧
      0 ≤ modify_p p count count_bytes bytes mean wait size ∧
      modify_p p count count_bytes bytes mean wait size ≤ 1 := by
  obtain ⟨n, hn, hn'⟩ : ∃ n, countSince count count_bytes bytes mean = some n ∧
      n = if bytes then ((count_bytes.tdiv mean : ℤ) : ℚ) else (count : ℚ) := by
    unfold countSince
    rw [if_neg hmean.ne']
    split_ifs
    · exact ⟨_, rfl, rfl⟩
    · exact ⟨_, rfl, rfl⟩
  obtain ⟨x, hx, hx0, hx'⟩ := spread_spec n wait hp
  obtain ⟨y, hy, hy0, hy'⟩ := shareOf_spec bytes hx0 hmean hsize
  have heq : modify_p p count count_bytes bytes mean wait size = if y > 1 then 1 else y := by
    unfold modify_p
    simp only [← hn', ← hx', ← hy']
  rw [heq]
  refine ⟨?_, ?_, ?_⟩
  · unfold modify_p_checked
    rw [hn, Option.bind_some, hx, Option.bind_some, hy, Option.map_some]
  · split_ifs
    · exact zero_le_one
    · exact hy0
  · split_ifs with h1
    · exact le_refl 1
    · exact not_lt.mp h1

/-! ## The shape of the map -/

/-- The coefficients are the ones of `reset`, for a gentle queue. -/
structure Coeffs (e : Edp) (v : Edv) : Prop where
  v_a : v.v_a = 1 / (e.th_max - e.th_min)
  v_b : v.v_b = -e.th_min / (e.th_max - e.th_min)
  v_c : v.v_c = (1 - 1 / e.max_p_inv) / e.th_max
  v_d : v.v_d = 2 * (1 / e.max_p_inv) - 1

/-- From `th_min` on the map grows, and it and what `modify_p` makes of it are probabilities. -/
structure Shape (e : Edp) (v : Edv) : Prop where
  grows : ∀ a b, e.th_min ≤ a → a ≤ b → dropProb e v a ≤ dropProb e v b
  mem : ∀ a, e.th_min ≤ a → 0 ≤ dropProb e v a ∧ dropProb e v a ≤ 1
  modified : ∀ a count count_bytes size, e.th_min ≤ a → 0 ≤ count → 0 ≤ count_bytes → 0 ≤ size →
    ∃ p, modify_p_checked (dropProb e v a) count count_bytes e.bytes e.mean_pktsize e.wait size =
      some p ∧ 0 ≤ p ∧ p ≤ 1

/-- The values of `cur_max_p` with which the map has its shape. -/
def Level (e : Edp) (x : ℚ) : Prop := 0 ≤ x ∧ (e.max_p_inv = 1 ∨ x ≤ 1 / e.max_p_inv)

instance (e : Edp) (x : ℚ) : Decidable (Level e x) := inferInstanceAs (Decidable (_ ∧ _))

/-- The gentle part grows, or is constant. -/
def Rises (e : Edp) : Prop := e.max_p_inv = 1 ∨ 0 < e.th_max

instance (e : Edp) : Decidable (Rises e) := inferInstanceAs (Decidable (_ ∨ _))

/-- A gentle queue, of whose parameters those that are divided by are not zero. -/
structure Gentle (e : Edp) : Prop where
  gentle : e.gentle = true
  min_lt_max : e.th_min < e.th_max
  max_ne_zero : e.th_max ≠ 0
  one_le_inv : 1 ≤ e.max_p_inv
  mean_pos : 0 < e.mean_pktsize
  alpha_ne_zero : e.feng_adaptive = 1 → e.alpha ≠ 0

namespace Gentle

variable {a b : ℚ}

theorem inv_pos (h : Gentle e) : 0 < 1 / e.max_p_inv :=
  one_div_pos.mpr (lt_of_lt_of_le one_pos h.one_le_inv)

theorem inv_le_one (h : Gentle e) : 1 / e.max_p_inv ≤ 1 := by
  rw [div_le_one (lt_of_lt_of_le one_pos h.one_le_inv)]
  exact h.one_le_inv

theorem inv_lt_one (h : Gentle e) (hne : e.max_p_inv ≠ 1) : 1 / e.max_p_inv < 1 := by
  rw [div_lt_one (lt_of_lt_of_le one_pos h.one_le_inv)]
  exact lt_of_le_of_ne h.one_le_inv hne.symm

/-- Below `th_max` the map goes from 0 towards `cur_max_p`. -/
theorem dropProb_low (h : Gentle e) (hc : Coeffs e v) (ha : a < e.th_max) :
    dropProb e v a = min ((a - e.th_min) / (e.th_max - e.th_min) * v.cur_max_p) 1 := by
  have hline : v.v_a * a + v.v_b = (a - e.th_min) / (e.th_max - e.th_min) := by
    rw [hc.v_a, hc.v_b]
    ring
  unfold dropProb calculate_p_new
  simp only [h.gentle, hline, not_le.mpr ha, and_false, if_false]
  rw [min_def]
  split_ifs <;> linarith

/-- From `th_max` on it goes from the first value of `cur_max_p` to 1. -/
theorem dropProb_high (h : Gentle e) (hc : Coeffs e v) (ha : e.th_max ≤ a) :
    dropProb e v a =
      min (1 / e.max_p_inv + (1 - 1 / e.max_p_inv) * ((a - e.th_max) / e.th_max)) 1 := by
  have hmax := h.max_ne_zero
  have hline : v.v_c * a + v.v_d =
      1 / e.max_p_inv + (1 - 1 / e.max_p_inv) * ((a - e.th_max) / e.th_max) := by
    rw [hc.v_c, hc.v_d]
    generalize 1 / e.max_p_inv = P
    field_simp
    ring
  unfold dropProb calculate_p_new
  simp only [h.gentle, hline, ha, and_self, if_true]
  rw [min_def]
  split_ifs <;> linarith

/-- Below `th_max` the map is between 0 and the first value of `cur_max_p`. -/
theorem dropProb_low_mem (h : Gentle e) (hc : Coeffs e v) (hl : Level e v.cur_max_p)
    (hmin : e.th_min ≤ a) (ha : a < e.th_max) :
    0 ≤ dropProb e v a ∧ dropProb e v a ≤ 1 / e.max_p_inv := by
  have hd : 0 < e.th_max - e.th_min := sub_pos.mpr h.min_lt_max
  have hfrac : 0 ≤ (a - e.th_min) / (e.th_max - e.th_min) := div_nonneg (by linarith) hd.le
  have hfrac1 : (a - e.th_min) / (e.th_max - e.th_min) ≤ 1 := by
    rw [div_le_one hd]
    linarith
  rw [h.dropProb_low hc ha]
  refine ⟨le_min (mul_nonneg hfrac hl.1) zero_le_one, ?_⟩
  rcases hl.2 with h1 | hle
  · rw [h1, div_one]
    exact min_le_right _ _
  · calc min ((a - e.th_min) / (e.th_max - e.th_min) * v.cur_max_p) 1
        ≤ (a - e.th_min) / (e.th_max - e.th_min) * v.cur_max_p := min_le_left _ _
      _ ≤ v.cur_max_p := mul_le_of_le_one_left hl.1 hfrac1
      _ ≤ 1 / e.max_p_inv := hle

/-- The slope of the gentle part. -/
theorem slope_nonneg (h : Gentle e) (hr : Rises e) : 0 ≤ (1 - 1 / e.max_p_inv) / e.th_max := by
  rcases hr with h1 | hpos
  · rw [h1]
    norm_num
  · exact div_nonneg (sub_nonneg.mpr h.inv_le_one) hpos.le

/-- From `th_max` on the map is between the first value of `cur_max_p` and 1. -/
theorem dropProb_high_mem (h : Gentle e) (hc : Coeffs e v) (hr : Rises e) (ha : e.th_max ≤ a) :
    1 / e.max_p_inv ≤ dropProb e v a ∧ dropProb e v a ≤ 1 := by
  rw [h.dropProb_high hc ha]
  refine ⟨le_min ?_ h.inv_le_one, min_le_right _ _⟩
  have hmul := mul_nonneg (h.slope_nonneg hr) (sub_nonneg.mpr ha)
  have heq : (1 - 1 / e.max_p_inv) * ((a - e.th_max) / e.th_max) =
      (1 - 1 / e.max_p_inv) / e.th_max * (a - e.th_max) := by ring
  rw [heq]
  linarith

/-- The map grows across `th_max`. -/
theorem dropProb_grows (h : Gentle e) (hc : Coeffs e v) (hr : Rises e) (hl : Level e v.cur_max_p)
    (hmin : e.th_min ≤ a) (hab : a ≤ b) : dropProb e v a ≤ dropProb e v b := by
  rcases lt_or_ge b e.th_max with hb | hb
  · have ha : a < e.th_max := lt_of_le_of_lt hab hb
    have hd : 0 < e.th_max - e.th_min := sub_pos.mpr h.min_lt_max
    rw [h.dropProb_low hc ha, h.dropProb_low hc hb]
    refine min_le_min (mul_le_mul_of_nonneg_right ?_ hl.1) (le_refl 1)
    exact div_le_div_of_nonneg_right (by linarith) hd.le
  · rcases lt_or_ge a e.th_max with ha | ha
    · -- across the breakpoint
      exact (h.dropProb_low_mem hc hl hmin ha).2.trans (h.dropProb_high_mem hc hr hb).1
    · have hmul := mul_le_mul_of_nonneg_left (sub_le_sub_right hab e.th_max) (h.slope_nonneg hr)
      have heq : ∀ x, (1 - 1 / e.max_p_inv) * ((x - e.th_max) / e.th_max) =
          (1 - 1 / e.max_p_inv) / e.th_max * (x - e.th_max) := fun x => by ring
      rw [h.dropProb_high hc ha, h.dropProb_high hc hb, heq, heq]
      exact min_le_min (by linarith) (le_refl 1)

theorem shape (h : Gentle e) (hc : Coeffs e v) (hr : Rises e) (hl : Level e v.cur_max_p) :
    Shape e v := by
  have hmem : ∀ a, e.th_min ≤ a → 0 ≤ dropProb e v a ∧ dropProb e v a ≤ 1 := by
    intro a hmin
    rcases lt_or_ge a e.th_max with ha | ha
    · have hlow := h.dropProb_low_mem hc hl hmin ha
      exact ⟨hlow.1, hlow.2.trans h.inv_le_one⟩
    · have hhigh := h.dropProb_high_mem hc hr ha
      exact ⟨h.inv_pos.le.trans hhigh.1, hhigh.2⟩
  refine ⟨fun a b hmin hab => h.dropProb_grows hc hr hl hmin hab, hmem, ?_⟩
  intro a count count_bytes size hmin _ _ hsize
  exact ⟨_, modify_p_spec (hmem a hmin).1 h.mean_pos hsize⟩

/-- A gentle part that falls gets below 0. -/
theorem rises_of_shape (h : Gentle e) (hc : Coeffs e v) (hs : Shape e v) : Rises e := by
  by_contra hr
  unfold Rises at hr
  push Not at hr
  obtain ⟨hne, hle⟩ := hr
  have hneg : e.th_max < 0 := lt_of_le_of_ne hle h.max_ne_zero
  have hlt := h.inv_lt_one hne
  have hpos : 0 < 1 - 1 / e.max_p_inv := sub_pos.mpr hlt
  -- where the line is at -1
  have hquot : 0 ≤ -e.th_max * (2 / (1 - 1 / e.max_p_inv)) :=
    mul_nonneg (by linarith) (div_nonneg zero_le_two hpos.le)
  have hge : e.th_max ≤ e.th_max + -e.th_max * (2 / (1 - 1 / e.max_p_inv)) := by linarith
  have hnonneg := (hs.mem _ (h.min_lt_max.le.trans hge)).1
  rw [h.dropProb_high hc hge] at hnonneg
  have hline : (1 - 1 / e.max_p_inv) *
      ((e.th_max + -e.th_max * (2 / (1 - 1 / e.max_p_inv)) - e.th_max) / e.th_max) = -2 := by
    have hmax := h.max_ne_zero
    have hpos' := hpos.ne'
    generalize 1 - 1 / e.max_p_inv = x at hpos'
    field_simp
    ring
  rw [hline] at hnonneg
  have := hnonneg.trans (min_le_left _ _)
  linarith

/-- The map falls at `th_max` if `cur_max_p` is above its first value, and below it if it is
negative. -/
theorem level_of_shape (h : Gentle e) (hc : Coeffs e v) (hs : Shape e v) :
    Level e v.cur_max_p := by
  have hd : 0 < e.th_max - e.th_min := sub_pos.mpr h.min_lt_max
  have hfrac : ∀ t,
      (e.th_min + t * (e.th_max - e.th_min) - e.th_min) / (e.th_max - e.th_min) = t := by
    intro t
    rw [add_sub_cancel_left, mul_div_assoc, div_self hd.ne', mul_one]
  have hin : ∀ t, 0 ≤ t → t < 1 → e.th_min ≤ e.th_min + t * (e.th_max - e.th_min) ∧
      e.th_min + t * (e.th_max - e.th_min) < e.th_max := by
    intro t ht0 ht1
    constructor
    · linarith [mul_nonneg ht0 hd.le]
    · linarith [mul_lt_mul_of_pos_right ht1 hd]
  have hval : ∀ t, 0 ≤ t → t < 1 →
      dropProb e v (e.th_min + t * (e.th_max - e.th_min)) = min (t * v.cur_max_p) 1 := by
    intro t ht0 ht1
    rw [h.dropProb_low hc (hin t ht0 ht1).2, hfrac]
  have hnonneg : 0 ≤ v.cur_max_p := by
    have h0 := (hs.mem _ (hin (1 / 2) (by norm_num) (by norm_num)).1).1
    rw [hval _ (by norm_num) (by norm_num)] at h0
    linarith [h0.trans (min_le_left _ _)]
  refine ⟨hnonneg, ?_⟩
  by_contra hcon
  push Not at hcon
  obtain ⟨hne, hlt⟩ := hcon
  have hlt1 := h.inv_lt_one hne
  have hinv := h.inv_pos
  have hm : 0 < v.cur_max_p := hinv.trans hlt
  -- half way between the two values
  set t := (1 / e.max_p_inv / v.cur_max_p + 1) / 2 with ht
  have hq : 1 / e.max_p_inv / v.cur_max_p < 1 := (div_lt_one hm).mpr hlt
  have hq0 : 0 < 1 / e.max_p_inv / v.cur_max_p := div_pos hinv hm
  have ht0 : 0 ≤ t := by rw [ht]; linarith
  have ht1 : t < 1 := by rw [ht]; linarith
  have htm : t * v.cur_max_p = (1 / e.max_p_inv + v.cur_max_p) / 2 := by
    rw [ht, div_mul_eq_mul_div, add_mul, one_mul, div_mul_cancel₀ _ hm.ne']
  have hgrow := hs.grows _ e.th_max (hin t ht0 ht1).1 (hin t ht0 ht1).2.le
  rw [hval t ht0 ht1, htm, h.dropProb_high hc (le_refl _), sub_self, zero_div, mul_zero, add_zero,
    min_eq_left hlt1.le] at hgrow
  rcases min_le_iff.mp hgrow with hle | hle
  · linarith
  · linarith

/-- The map has its shape at these levels, and only there. -/
theorem shape_iff (h : Gentle e) (hc : Coeffs e v) :
    Shape e v ↔ Rises e ∧ Level e v.cur_max_p :=
  ⟨fun hs => ⟨h.rises_of_shape hc hs, h.level_of_shape hc hs⟩, fun hrl => h.shape hc hrl.1 hrl.2⟩

end Gentle

/-! ## Adaptation -/

/-- The average that an arrival makes. -/
def average (e : Edp) (v : Edv) (nqueued m : ℤ) : ℚ :=
  (· * (1 - e.q_w))^[(m - 1).toNat] v.v_ave * (1 - e.q_w) + e.q_w * nqueued

/-- If the average `a` at the time `now` changes `cur_max_p`, it stays at a level with which the map
has its shape. -/
def Adapts (e : Edp) (v : Edv) (a now : ℚ) : Prop :=
  e.adaptive = 1 →
    if e.feng_adaptive = 1 then
      (a < e.th_min → v.status ≠ .Below → Level e (v.cur_max_p / e.alpha)) ∧
        (a > e.th_max → v.status ≠ .Above → Level e (v.cur_max_p * e.beta))
    else
      now > v.lastset + e.interval →
        if a < e.th_min + 4 / 10 * (e.th_max - e.th_min) ∧ v.cur_max_p > e.bottom then
          Level e (v.cur_max_p * e.beta)
        else
          a > e.th_max - 4 / 10 * (e.th_max - e.th_min) → e.top > v.cur_max_p →
            Level e (v.cur_max_p + min e.alpha (25 / 100 * v.cur_max_p))

instance (e : Edp) (v : Edv) (a now : ℚ) : Decidable (Adapts e v a now) :=
  inferInstanceAs (Decidable (_ → _))

/-- The coefficients and `cur_max_p` are the same. -/
structure Same (v v' : Edv) : Prop where
  v_a : v'.v_a = v.v_a
  v_b : v'.v_b = v.v_b
  v_c : v'.v_c = v.v_c
  v_d : v'.v_d = v.v_d
  cur_max_p : v'.cur_max_p = v.cur_max_p

theorem Same.refl (v : Edv) : Same v v := ⟨rfl, rfl, rfl, rfl, rfl⟩

theorem Same.coeffs {v' : Edv} (h : Same v v') (hc : Coeffs e v) : Coeffs e v' :=
  ⟨h.v_a.trans hc.v_a, h.v_b.trans hc.v_b, h.v_c.trans hc.v_c, h.v_d.trans hc.v_d⟩

theorem updateMaxPFeng_level (h : Gentle e) (hl : Level e v.cur_max_p) (a : ℚ) :
    Level e (updateMaxPFeng e v a).cur_max_p ↔
      (a < e.th_min → v.status ≠ .Below → Level e (v.cur_max_p / e.alpha)) ∧
        (a > e.th_max → v.status ≠ .Above → Level e (v.cur_max_p * e.beta)) := by
  have hlt := h.min_lt_max
  unfold updateMaxPFeng
  rcases lt_trichotomy a e.th_min with ha | ha | ha
  · have hbetween : ¬ (e.th_min < a ∧ a < e.th_max) := fun hb => absurd hb.1 (not_lt.mpr ha.le)
    have habove : ¬ a > e.th_max := not_lt.mpr (by linarith)
    by_cases hst : v.status = .Below <;> simp [hbetween, habove, ha, hst, hl]
  · have hbetween : ¬ (e.th_min < a ∧ a < e.th_max) := fun hb => absurd ha hb.1.ne'
    have habove : ¬ a > e.th_max := not_lt.mpr (by linarith)
    simp [hbetween, habove, ha.not_lt, hl]
  · have hbelow : ¬ a < e.th_min := not_lt.mpr ha.le
    by_cases habove : a > e.th_max
    · have hbetween : ¬ (e.th_min < a ∧ a < e.th_max) := fun hb =>
        absurd hb.2 (not_lt.mpr habove.le)
      by_cases hst : v.status = .Above <;> simp [hbetween, habove, hbelow, hst, hl]
    · by_cases hbetween : e.th_min < a ∧ a < e.th_max <;> simp [hbetween, habove, hbelow, hl]

theorem updateMaxP_level (hl : Level e v.cur_max_p) (a now : ℚ) :
    Level e (updateMaxP e v a now).cur_max_p ↔
      if a < e.th_min + 4 / 10 * (e.th_max - e.th_min) ∧ v.cur_max_p > e.bottom then
        Level e (v.cur_max_p * e.beta)
      else
        a > e.th_max - 4 / 10 * (e.th_max - e.th_min) → e.top > v.cur_max_p →
          Level e (v.cur_max_p + min e.alpha (25 / 100 * v.cur_max_p)) := by
  have hmin : (if e.alpha > 25 / 100 * v.cur_max_p then 25 / 100 * v.cur_max_p else e.alpha) =
      min e.alpha (25 / 100 * v.cur_max_p) := by
    rw [min_def]
    split_ifs <;> linarith
  unfold updateMaxP
  simp only [hmin]
  split_ifs with hlow hhigh
  · exact Iff.rfl
  · simp only [hhigh.1, hhigh.2, true_imp_iff]
  · exact iff_of_true hl fun h1 h2 => absurd ⟨h1, h2⟩ hhigh

/-- The estimator keeps the coefficients. -/
theorem estimator_coeffs (hc : Coeffs e v) (nqueued m : ℤ) (now : ℚ) :
    Coeffs e (estimator e v nqueued m now) := by
  have hfeng : ∀ a, Coeffs e (updateMaxPFeng e v a) := by
    intro a
    unfold updateMaxPFeng
    simp only
    split_ifs <;> exact ⟨hc.v_a, hc.v_b, hc.v_c, hc.v_d⟩
  have hmax : ∀ a, Coeffs e (updateMaxP e v a now) := by
    intro a
    unfold updateMaxP
    simp only
    split_ifs <;> exact ⟨hc.v_a, hc.v_b, hc.v_c, hc.v_d⟩
  have hcongr : ∀ {w : Edv} {a : ℚ}, Coeffs e w → Coeffs e { w with v_ave := a } :=
    fun hw => ⟨hw.v_a, hw.v_b, hw.v_c, hw.v_d⟩
  unfold estimator
  apply hcongr
  split_ifs
  · exact hfeng _
  · exact hmax _
  · exact hc
  · exact hc

/-- The level after the estimator has run. -/
theorem estimator_level (h : Gentle e) (hl : Level e v.cur_max_p) (nqueued m : ℤ) (now : ℚ) :
    Level e (estimator e v nqueued m now).cur_max_p ↔ Adapts e v (average e v nqueued m) now := by
  unfold estimator Adapts
  by_cases had : e.adaptive = 1
  · by_cases hf : e.feng_adaptive = 1
    · simp only [had, hf, if_true, true_imp_iff]
      exact updateMaxPFeng_level h hl _
    · by_cases hnow : now > v.lastset + e.interval
      · simp only [had, hf, hnow, if_true, if_false, true_imp_iff]
        exact updateMaxP_level hl _ now
      · simp only [had, hf, hnow, if_true, if_false, false_imp_iff, iff_true, imp_true_iff]
        exact hl
  · simp only [had, if_false, false_imp_iff, iff_true]
    exact hl

/-! ## Runs -/

/-- A packet arrives, with the random numbers and the time, or one is asked for. -/
inductive Op where
  | enque (pkt : Packet) (u : ℚ) (r : ℕ) (now : ℚ)
  | deque (now : ℚ)

/-- The state after a call; `enque` always returns. -/
def advance (c : Config) (s : REDQueue) : Op → REDQueue
  | .enque pkt u r now => ((enque c s pkt u r now).map Prod.fst).getD s
  | .deque now => (deque s now).1

theorem Same.of_eq {v v' w : Edv} (h : Same v v') (ha : w.v_a = v'.v_a) (hb : w.v_b = v'.v_b)
    (hc : w.v_c = v'.v_c) (hd : w.v_d = v'.v_d) (hp : w.cur_max_p = v'.cur_max_p) : Same v w :=
  ⟨ha.trans h.v_a, hb.trans h.v_b, hc.trans h.v_c, hd.trans h.v_d, hp.trans h.cur_max_p⟩

theorem drop_early_same (c : Config) (e : Edp) (v : Edv) (q : List Packet) (pkt : Packet) (u : ℚ) :
    Same v (drop_early c e v q pkt u).1 := by
  unfold drop_early
  simp only
  split_ifs <;> exact ⟨rfl, rfl, rfl, rfl, rfl⟩

theorem decide_early_same (c : Config) (e : Edp) (v : Edv) (q : List Packet) (pkt : Packet)
    (u : ℚ) : Same v (decide_early c e v q pkt u).1 := by
  unfold decide_early
  split_ifs
  · exact Same.refl v
  · exact ⟨rfl, rfl, rfl, rfl, rfl⟩
  · exact drop_early_same c e v q pkt u
  · exact ⟨rfl, rfl, rfl, rfl, rfl⟩

/-- After an arrival the coefficients and `cur_max_p` are as the drop probability was computed
from. -/
theorem advance_enque (c : Config) (s : REDQueue) (pkt : Packet) (u : ℚ) (r : ℕ) (now : ℚ) :
    (advance c s (.enque pkt u r now)).edp = s.edp ∧
      Same (arriveEdv c s pkt now) (advance c s (.enque pkt u r now)).edv := by
  have hsame := decide_early_same c s.edp (arriveEdv c s pkt now) s.q pkt u
  obtain ⟨⟨s', res⟩, henq⟩ := enque_isSome c s pkt u r now
  have hadv : advance c s (.enque pkt u r now) = s' := by
    simp [advance, henq]
  rw [hadv]
  unfold enque at henq
  simp only at henq
  generalize decide_early c s.edp (arriveEdv c s pkt now) s.q pkt u = d at henq hsame
  generalize (if qsize c s.q ≥ qlim c then DropType.FORCED else d.2.2) = t at henq
  cases t with
  | NONE =>
    obtain ⟨rfl, -⟩ := Prod.mk.inj (Option.some.inj henq)
    exact ⟨rfl, hsame⟩
  | UNFORCED =>
    obtain ⟨rfl, -⟩ := Prod.mk.inj (Option.some.inj henq)
    exact ⟨rfl, hsame⟩
  | FORCED =>
    obtain ⟨p, -, heq⟩ := Option.map_eq_some_iff.mp henq
    obtain ⟨rfl, -⟩ := Prod.mk.inj heq
    refine ⟨rfl, ?_⟩
    by_cases hns1 : c.ns1_compat_ = true
    · simpa [hns1] using hsame
    · simp only [hns1]
      exact hsame.of_eq rfl rfl rfl rfl rfl

/-- A call of `deque` leaves the parameters and the variables alone. -/
theorem advance_deque (c : Config) (s : REDQueue) (now : ℚ) :
    (advance c s (.deque now)).edp = s.edp ∧ (advance c s (.deque now)).edv = s.edv := by
  unfold advance deque
  cases s.q with
  | nil => exact ⟨rfl, rfl⟩
  | cons p q => exact ⟨rfl, rfl⟩

/-- At an arrival the map has its shape. -/
def GrowsAt (c : Config) (s : REDQueue) : Op → Prop
  | .enque pkt _ _ now => Shape s.edp (arriveEdv c s pkt now)
  | .deque _ => True

/-- At an arrival adaptation keeps `cur_max_p` at a level for which the gentle part is right. -/
def AdaptsAt (c : Config) (s : REDQueue) : Op → Prop
  | .enque _ _ _ now => Rises s.edp ∧
      Adapts s.edp s.edv (average s.edp s.edv (qsize c s.q) (idlePackets s now + 1)) now
  | .deque _ => True

instance (c : Config) (s : REDQueue) : (op : Op) → Decidable (AdaptsAt c s op)
  | .enque _ _ _ _ => inferInstanceAs (Decidable (_ ∧ _))
  | .deque _ => isTrue trivial

/-- The invariant of the runs in which it does. -/
structure Levelled (c : Config) (s : REDQueue) : Prop where
  edp : s.edp = scale c
  coeffs : Coeffs s.edp s.edv
  level : Level s.edp s.edv.cur_max_p

theorem levelled_reset (h : Gentle (scale c)) (now : ℚ) : Levelled c (reset c now) := by
  have hd : (scale c).th_max - (scale c).th_min ≠ 0 := (sub_pos.mpr h.min_lt_max).ne'
  refine ⟨rfl, ⟨?_, ?_, ?_, ?_⟩, h.inv_pos.le, Or.inr (le_refl _)⟩
  · simp only [reset, if_neg hd]
  · simp only [reset, if_neg hd]
  · simp only [reset, h.gentle, if_true]
  · simp only [reset, h.gentle, if_true]

theorem Levelled.coeffs_arrive (h : Levelled c s) (pkt : Packet) (now : ℚ) :
    Coeffs s.edp (arriveEdv c s pkt now) := by
  have hest := estimator_coeffs h.coeffs (qsize c s.q) (idlePackets s now + 1) now
  exact ⟨hest.v_a, hest.v_b, hest.v_c, hest.v_d⟩

theorem Levelled.growsAt_iff (h : Levelled c s) (hg : Gentle (scale c)) (op : Op) :
    GrowsAt c s op ↔ AdaptsAt c s op := by
  cases op with
  | enque pkt u r now =>
    have hg' : Gentle s.edp := h.edp ▸ hg
    exact (hg'.shape_iff (h.coeffs_arrive pkt now)).trans
      (and_congr_right fun _ => estimator_level hg' h.level _ _ now)
  | deque now => exact Iff.rfl

theorem Levelled.advance (h : Levelled c s) (hg : Gentle (scale c)) {op : Op}
    (hop : AdaptsAt c s op) : Levelled c (advance c s op) := by
  cases op with
  | enque pkt u r now =>
    have hg' : Gentle s.edp := h.edp ▸ hg
    obtain ⟨hedp, hsame⟩ := advance_enque c s pkt u r now
    have hlevel := (estimator_level hg' h.level (qsize c s.q) (idlePackets s now + 1) now).mpr hop.2
    refine ⟨hedp.trans h.edp, ?_, ?_⟩
    · rw [hedp]
      exact hsame.coeffs (h.coeffs_arrive pkt now)
    · rw [hedp, hsame.cur_max_p]
      exact hlevel
  | deque now =>
    obtain ⟨hedp, hedv⟩ := advance_deque c s now
    exact ⟨hedp.trans h.edp, hedp ▸ hedv ▸ h.coeffs, hedp ▸ hedv ▸ h.level⟩

/-- **In a run of a gentle queue the drop probability grows with the average queue size at every
arrival if adaptation keeps `cur_max_p` between 0 and its first value, and only then.** -/
theorem drop_probability_iff (c : Config) (now : ℚ) (ops : List Op) (h : Gentle (scale c)) :
    Run.AllSteps (advance c) (GrowsAt c) (reset c now) ops ↔
      Run.AllSteps (advance c) (AdaptsAt c) (reset c now) ops := by
  apply Run.allSteps_congr (I := Levelled c)
  · exact fun s op hs => hs.growsAt_iff h op
  · exact fun s op hs hop => hs.advance h hop
  · exact levelled_reset h now

/-- An adaptive queue of packets with thresholds 1 and 2. -/
def adaptive : Config where
  edp := { twoPackets.edp with gentle := true, th_min_pkts := 1, adaptive := 1 }
  qib_ := false
  qlim_ := 1000
  drop_front_ := false
  drop_rand_ := false
  ns1_compat_ := false
  pow := fun _ _ => 1

theorem gentle_adaptive : Gentle (scale adaptive) :=
  ⟨rfl, by decide +kernel, by decide +kernel, by decide +kernel, by decide, by decide⟩

/-- Two packets arrive before the first adaptation. -/
theorem drop_probability_two :
    Run.AllSteps (advance adaptive) (GrowsAt adaptive) (reset adaptive 0)
      [.enque (ecnPacket 1) 1 0 (1 / 4), .enque (ecnPacket 2) 1 0 (1 / 4)] :=
  (drop_probability_iff adaptive 0 _ gentle_adaptive).mpr (by decide +kernel)

/-- A third one finds two, and the probability for an average just below the maximum threshold
becomes larger than at the threshold. -/
theorem not_growsAt :
    ¬ Run.AllSteps (advance adaptive) (GrowsAt adaptive) (reset adaptive 0)
      [.enque (ecnPacket 1) 1 0 (1 / 4), .enque (ecnPacket 2) 1 0 (1 / 4),
        .enque (ecnPacket 3) 1 0 1] := by
  rintro ⟨-, -, hthird, -⟩
  have hgrows := Shape.grows hthird (199 / 100) 2 (by decide +kernel) (by decide +kernel)
  exact absurd hgrows (by decide +kernel)

end Ns2.Queue.RED
