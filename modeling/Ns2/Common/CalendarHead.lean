import Ns2.Common.CalendarQueue

/-!
# The search for the next event

`CalendarScheduler::head` looks at the buckets from `lastbucket_` on, and stops at the
first one whose head is due within the year.

* `offset c t` — how many buckets a time is away from the clock, not wrapping around.
* `lt_threshold_iff` — the wrap-around checks are right: the head of the `j`-th bucket
  passes its check exactly when it is `j` buckets away.
* `Seen c l j s` — the invariant of the search after `j` buckets.
* `headScan_spec` — the search finds an earliest event.
-/

namespace Ns2.Common.CalendarScheduler

open Stable

variable {c : CalendarScheduler} {l : List Event} {e x y : Event} {s : Scan} {j : ℕ} {t T : ℚ}

/-! ## Distances on the calendar -/

/-- How many buckets a time is away from the clock. -/
def offset (c : CalendarScheduler) (t : ℚ) : ℕ := c.slot t - c.slot c.cal_clock_

/-- Everything the search relies on. -/
structure Searchable (c : CalendarScheduler) (l : List Event) : Prop where
  /-- The contents. -/
  holds : c.Holds l
  /-- The clock and the checks. -/
  ready : c.Ready
  /-- No event is before the clock. -/
  clock_le : ∀ x ∈ l, c.cal_clock_ ≤ x.time_

namespace Searchable

theorem slot_eq (h : c.Searchable l) (hx : x ∈ l) :
    c.slot x.time_ = c.slot c.cal_clock_ + c.offset x.time_ := by
  have hle : c.slot c.cal_clock_ ≤ c.slot x.time_ :=
    Nat.floor_mono (div_le_div_of_nonneg_right (h.clock_le x hx) h.holds.width_pos.le)
  rw [offset]
  omega

/-- The bucket of an event is found from its distance. -/
theorem hash_eq (h : c.Searchable l) (hx : x ∈ l) :
    c.calendarHash x.time_ = (c.lastbucket_ + c.offset x.time_) % c.nbuckets_ := by
  rw [h.ready.bucket, calendarHash_eq h.holds.width_pos (h.holds.nonneg x hx),
    calendarHash_eq h.holds.width_pos h.ready.nonneg, h.slot_eq hx, Nat.mod_add_mod]

/-- The events of the `j`-th bucket from the clock on. -/
theorem hash_eq_iff (h : c.Searchable l) (hx : x ∈ l) (hj : j < c.nbuckets_) :
    c.calendarHash x.time_ = (c.lastbucket_ + j) % c.nbuckets_ ↔
      c.offset x.time_ % c.nbuckets_ = j := by
  rw [h.hash_eq hx]
  constructor
  · intro heq
    have := Nat.ModEq.add_left_cancel' c.lastbucket_ heq
    rwa [Nat.ModEq, Nat.mod_eq_of_lt hj] at this
  · intro heq
    rw [← heq, Nat.add_mod_mod]

/-- What the offset says about the time. -/
theorem sub_clock_lt (h : c.Searchable l) (hx : x ∈ l) :
    x.time_ - c.cal_clock_ < (c.offset x.time_ + 1) * c.width_ := by
  have hw := h.holds.width_pos
  have h1 : x.time_ / c.width_ < c.slot x.time_ + 1 := Nat.lt_floor_add_one _
  have h2 : (c.slot c.cal_clock_ : ℚ) ≤ c.cal_clock_ / c.width_ :=
    Nat.floor_le (div_nonneg h.ready.nonneg hw.le)
  rw [h.slot_eq hx] at h1
  rw [div_lt_iff₀ hw] at h1
  rw [le_div_iff₀ hw] at h2
  push_cast at h1
  linarith

theorem lt_sub_clock (h : c.Searchable l) (hx : x ∈ l) :
    (c.offset x.time_ - 1 : ℚ) * c.width_ < x.time_ - c.cal_clock_ := by
  have hw := h.holds.width_pos
  have h1 : (c.slot x.time_ : ℚ) ≤ x.time_ / c.width_ :=
    Nat.floor_le (div_nonneg (h.holds.nonneg x hx) hw.le)
  have h2 : c.cal_clock_ / c.width_ < c.slot c.cal_clock_ + 1 := Nat.lt_floor_add_one _
  rw [h.slot_eq hx] at h1
  rw [le_div_iff₀ hw] at h1
  rw [div_lt_iff₀ hw] at h2
  push_cast at h1
  linarith

/-- A smaller offset is an earlier time. -/
theorem time_lt (h : c.Searchable l) (hx : x ∈ l) (hy : y ∈ l)
    (hlt : c.offset x.time_ < c.offset y.time_) : x.time_ < y.time_ := by
  refine lt_of_not_ge fun hle => ?_
  have hslot : c.slot y.time_ ≤ c.slot x.time_ :=
    Nat.floor_mono (div_le_div_of_nonneg_right hle h.holds.width_pos.le)
  rw [h.slot_eq hx, h.slot_eq hy] at hslot
  omega

/-- **The wrap-around checks.**  A threshold between the end of the `j`-th bucket and its
start a year later, less a bucket, tells an event in this year from later ones. -/
theorem lt_threshold_iff (h : c.Searchable l) (hx : x ∈ l)
    (hj : c.offset x.time_ % c.nbuckets_ = j) (hlo : (j + 1) * c.width_ ≤ T)
    (hhi : T ≤ (c.nbuckets_ + j - 1) * c.width_) :
    x.time_ - c.cal_clock_ < T ↔ c.offset x.time_ = j := by
  have hw := h.holds.width_pos
  constructor
  · intro hlt
    by_contra hne
    -- otherwise the event is a year away at least
    have hfar : c.nbuckets_ + j ≤ c.offset x.time_ := by
      have hdiv := Nat.div_add_mod (c.offset x.time_) c.nbuckets_
      rw [hj] at hdiv
      have hpos : 1 ≤ c.offset x.time_ / c.nbuckets_ := by
        refine Nat.one_le_iff_ne_zero.mpr fun hzero => hne ?_
        rw [hzero] at hdiv
        omega
      have := Nat.mul_le_mul_left c.nbuckets_ hpos
      omega
    have hfar' : ((c.nbuckets_ + j : ℕ) : ℚ) ≤ c.offset x.time_ := Nat.cast_le.mpr hfar
    push_cast at hfar'
    have h1 := h.lt_sub_clock hx
    have h2 := mul_le_mul_of_nonneg_right (sub_le_sub_right hfar' 1) hw.le
    linarith
  · intro heq
    have := h.sub_clock_lt hx
    rw [heq] at this
    linarith

end Searchable

/-! ## The search -/

/-- The search has found an earliest event, at the head of bucket `i`. -/
structure Found (c : CalendarScheduler) (l : List Event) (e : Event) (i : ℕ) : Prop where
  /-- The bucket exists. -/
  lt : i < c.nbuckets_
  /-- The event is its head. -/
  head : (c.buckets_ i).list_.head? = some e
  /-- No event is earlier. -/
  le : ∀ x ∈ l, e.time_ ≤ x.time_

/-- The search has passed over `j` buckets. -/
structure Seen (c : CalendarScheduler) (l : List Event) (j : ℕ) (s : Scan) : Prop where
  /-- The next bucket. -/
  next : s.i = (c.lastbucket_ + j) % c.nbuckets_
  /-- The events passed over are not due this year. -/
  far : ∀ x ∈ l, c.offset x.time_ % c.nbuckets_ < j → c.nbuckets_ ≤ c.offset x.time_
  /-- Without a minimum, the buckets passed over are empty. -/
  none : s.min_e = none → ∀ x ∈ l, ¬ c.offset x.time_ % c.nbuckets_ < j
  /-- The minimum is the head of its bucket, and the earliest event passed over. -/
  some : ∀ m ∈ s.min_e, m.2 < c.nbuckets_ ∧ (c.buckets_ m.2).list_.head? = some m.1 ∧
    ∀ x ∈ l, c.offset x.time_ % c.nbuckets_ < j → m.1.time_ ≤ x.time_

theorem Searchable.head_bucket (h : c.Searchable l) (hj : j < c.nbuckets_)
    (hi : s.i = (c.lastbucket_ + j) % c.nbuckets_)
    (he : (c.buckets_ s.i).list_.head? = some e) :
    s.i < c.nbuckets_ ∧ e ∈ l ∧ c.offset e.time_ % c.nbuckets_ = j ∧
      ∀ x ∈ l, c.offset x.time_ % c.nbuckets_ = j → e.time_ ≤ x.time_ := by
  have hlt : s.i < c.nbuckets_ := by
    rw [hi]
    exact Nat.mod_lt _ (by omega)
  obtain ⟨rest, hrest⟩ := List.head?_eq_some_iff.mp he
  have hmem : ∀ x, x ∈ e :: rest ↔ x ∈ l ∧ c.calendarHash x.time_ = s.i := by
    intro x
    rw [← hrest]
    exact h.holds.mem_bucket_iff hlt
  obtain ⟨hel, heh⟩ := (hmem e).mp List.mem_cons_self
  refine ⟨hlt, hel, ?_, fun x hx hxj => ?_⟩
  · rwa [hi, h.hash_eq_iff hel hj] at heh
  · have hsorted := h.holds.sorted s.i hlt
    rw [hrest] at hsorted
    refine hsorted.head_le x ((hmem x).mpr ⟨hx, ?_⟩)
    rw [hi, h.hash_eq_iff hx hj]
    exact hxj

theorem Searchable.bucket_nil (h : c.Searchable l) (hj : j < c.nbuckets_)
    (hi : s.i = (c.lastbucket_ + j) % c.nbuckets_) (he : (c.buckets_ s.i).list_ = []) :
    ∀ x ∈ l, c.offset x.time_ % c.nbuckets_ ≠ j := by
  intro x hx hxj
  have hlt : s.i < c.nbuckets_ := by
    rw [hi]
    exact Nat.mod_lt _ (by omega)
  have : x ∈ (c.buckets_ s.i).list_ :=
    (h.holds.mem_bucket_iff hlt).mpr ⟨hx, by rw [hi, h.hash_eq_iff hx hj]; exact hxj⟩
  rw [he] at this
  exact absurd this List.not_mem_nil

/-- The next bucket on the circle. -/
theorem next_bucket (hn : 0 < c.nbuckets_) (hi : s.i = (c.lastbucket_ + j) % c.nbuckets_) :
    (if s.i + 1 = c.nbuckets_ then 0 else s.i + 1) = (c.lastbucket_ + (j + 1)) % c.nbuckets_ := by
  have hlt : s.i < c.nbuckets_ := hi ▸ Nat.mod_lt _ hn
  rw [← Nat.add_assoc, Nat.add_mod, ← hi]
  split
  · rename_i heq
    rcases Nat.lt_or_ge 1 c.nbuckets_ with h1 | h1
    · rw [Nat.mod_eq_of_lt h1, heq, Nat.mod_self]
    · have : c.nbuckets_ = 1 := by omega
      rw [this, Nat.mod_one]
  · rw [Nat.mod_eq_of_lt (by omega : 1 < c.nbuckets_), Nat.mod_eq_of_lt (by omega)]

/-- One more bucket is passed over. -/
theorem forall_passed_succ {P : Event → Prop}
    (hlt : ∀ x ∈ l, c.offset x.time_ % c.nbuckets_ < j → P x)
    (heq : ∀ x ∈ l, c.offset x.time_ % c.nbuckets_ = j → P x) :
    ∀ x ∈ l, c.offset x.time_ % c.nbuckets_ < j + 1 → P x := fun x hx hx' =>
  (Nat.lt_succ_iff_lt_or_eq.mp hx').elim (hlt x hx) (heq x hx)

/-- The head of a bucket that is not due becomes the minimum if it is earlier. -/
theorem minEvent_spec (hs : Seen c l j s) (hi : s.i < c.nbuckets_)
    (hhead : (c.buckets_ s.i).list_.head? = some e)
    (hmin : ∀ x ∈ l, c.offset x.time_ % c.nbuckets_ = j → e.time_ ≤ x.time_) :
    (minEvent s.min_e e s.i).2 < c.nbuckets_ ∧
      (c.buckets_ (minEvent s.min_e e s.i).2).list_.head? = some (minEvent s.min_e e s.i).1 ∧
      ∀ x ∈ l, c.offset x.time_ % c.nbuckets_ < j + 1 →
        (minEvent s.min_e e s.i).1.time_ ≤ x.time_ := by
  cases hmin_e : s.min_e with
  | none =>
    exact ⟨hi, hhead, forall_passed_succ (fun x hx hx' => absurd hx' (hs.none hmin_e x hx)) hmin⟩
  | some m =>
    obtain ⟨h1, h2, h3⟩ := hs.some m hmin_e
    rw [minEvent]
    split
    · rename_i hgt
      exact ⟨hi, hhead, forall_passed_succ (fun x hx hx' => hgt.le.trans (h3 x hx hx')) hmin⟩
    · rename_i hle
      exact ⟨h1, h2, forall_passed_succ h3 fun x hx hx' => (not_lt.mp hle).trans (hmin x hx hx')⟩

/-- One `CAL_DEQUEUE` either finds an earliest event or passes over a bucket. -/
theorem calDequeue_spec (h : c.Searchable l) (hs : Seen c l j s) (hj : j < c.nbuckets_)
    (hlo : (j + 1) * c.width_ ≤ T) (hhi : T ≤ (c.nbuckets_ + j - 1) * c.width_) :
    (∃ s', c.calDequeue T s = .ok s' ∧ Seen c l (j + 1) s') ∨
      ∃ e s', c.calDequeue T s = .error (e, s') ∧ Found c l e s'.i := by
  have hnext := next_bucket (c := c) (by omega) hs.next
  rw [calDequeue]
  cases hb : (c.buckets_ s.i).list_ with
  | nil =>
    have hnil := h.bucket_nil hj hs.next hb
    have hlt : ∀ x ∈ l, c.offset x.time_ % c.nbuckets_ < j + 1 →
        c.offset x.time_ % c.nbuckets_ < j := fun x hx hlt => by
      have := hnil x hx
      omega
    refine Or.inl ⟨_, rfl, hnext, fun x hx hx' => hs.far x hx (hlt x hx hx'),
      fun hm x hx hx' => hs.none hm x hx (hlt x hx hx'), fun m hm => ?_⟩
    obtain ⟨h1, h2, h3⟩ := hs.some m hm
    exact ⟨h1, h2, fun x hx hx' => h3 x hx (hlt x hx hx')⟩
  | cons e rest =>
    have hhead : (c.buckets_ s.i).list_.head? = some e := by rw [hb, List.head?_cons]
    obtain ⟨hi, hel, hej, hmin⟩ := h.head_bucket hj hs.next hhead
    have hiff := h.lt_threshold_iff hel hej hlo hhi
    simp only
    split
    · -- the head is due in this year, all other events are later
      rename_i hlt
      have hoff := hiff.mp hlt
      refine Or.inr ⟨e, _, rfl, hi, hhead, fun x hx => ?_⟩
      rcases lt_trichotomy (c.offset x.time_ % c.nbuckets_) j with hlt | heq | hgt
      · refine (h.time_lt hel hx ?_).le
        have := hs.far x hx hlt
        omega
      · exact hmin x hx heq
      · refine (h.time_lt hel hx ?_).le
        have := Nat.mod_le (c.offset x.time_) c.nbuckets_
        omega
    · rename_i hge
      have hfar : ∀ x ∈ l, c.offset x.time_ % c.nbuckets_ = j → c.nbuckets_ ≤ c.offset x.time_ := by
        intro x hx hxj
        have hne : c.offset x.time_ ≠ j := fun heq => hge (by
          have h1 := (h.lt_threshold_iff hx hxj hlo hhi).mpr heq
          have h2 := hmin x hx hxj
          linarith)
        by_contra hlt
        rw [Nat.mod_eq_of_lt (not_le.mp hlt)] at hxj
        exact hne hxj
      refine Or.inl ⟨_, rfl, hnext, forall_passed_succ hs.far hfar, fun hm => ?_, fun m hm => ?_⟩
      · exact absurd hm (by simp)
      · obtain rfl : minEvent s.min_e e s.i = m := by simpa using hm
        exact minEvent_spec hs hi hhead hmin

/-- The loop looks at the buckets up to the last but one. -/
theorem scanRest_spec (h : c.Searchable l) :
    ∀ (fuel : ℕ) {j : ℕ} {s : Scan}, Seen c l j s → 2 ≤ j → j < c.nbuckets_ →
      c.nbuckets_ - 1 - j ≤ fuel →
      (∃ s', c.scanRest ((c.lastbucket_ + (c.nbuckets_ - 1)) % c.nbuckets_) fuel s = .ok s' ∧
          Seen c l (c.nbuckets_ - 1) s') ∨
        ∃ e s', c.scanRest ((c.lastbucket_ + (c.nbuckets_ - 1)) % c.nbuckets_) fuel s
          = .error (e, s') ∧ Found c l e s'.i := by
  intro fuel
  induction fuel with
  | zero =>
    intro j s hs hj hjn hf
    obtain rfl : j = c.nbuckets_ - 1 := by omega
    exact Or.inl ⟨s, rfl, hs⟩
  | succ fuel ih =>
    intro j s hs hj hjn hf
    rw [scanRest]
    split
    · rename_i heq
      rw [hs.next] at heq
      have := Nat.ModEq.add_left_cancel' c.lastbucket_ heq
      rw [Nat.ModEq, Nat.mod_eq_of_lt hjn, Nat.mod_eq_of_lt (by omega)] at this
      subst this
      exact Or.inl ⟨s, rfl, hs⟩
    · rename_i hne
      have hlast : j ≠ c.nbuckets_ - 1 := fun heq => hne (heq ▸ hs.next)
      have hjn' : (j + 2 : ℚ) ≤ c.nbuckets_ := by
        have : j + 2 ≤ c.nbuckets_ := by omega
        exact_mod_cast this
      have hj' : (2 : ℚ) ≤ j := by exact_mod_cast hj
      have hw := h.holds.width_pos
      rcases calDequeue_spec (T := c.diff2_) h hs hjn
        (by rw [h.ready.diff2]; nlinarith) (by rw [h.ready.diff2]; nlinarith) with
        ⟨s', h1, h2⟩ | ⟨e, s', h1, h2⟩
      · rw [h1]
        exact ih h2 (by omega) (by omega) (by omega)
      · exact Or.inr ⟨e, s', by rw [h1]; rfl, h2⟩

/-- The minimum of what was passed over and the last bucket is an earliest event. -/
theorem lastBucket_spec (h : c.Searchable l) (hne : l ≠ []) (hs : Seen c l (c.nbuckets_ - 1) s) :
    ∃ e i n, c.lastBucket s = some (e, i, n) ∧ Found c l e i := by
  have hn : c.nbuckets_ - 1 < c.nbuckets_ := by
    have := h.holds.four_le
    omega
  have hmod : ∀ x, c.offset x % c.nbuckets_ < c.nbuckets_ - 1 ∨
      c.offset x % c.nbuckets_ = c.nbuckets_ - 1 := fun x => by
    have := Nat.mod_lt (c.offset x) (by omega : 0 < c.nbuckets_)
    omega
  cases hmin_e : s.min_e with
  | none =>
    have hnone := hs.none hmin_e
    cases hb : (c.buckets_ s.i).list_ with
    | nil =>
      -- all buckets would be empty
      obtain ⟨x, hx⟩ := List.exists_mem_of_ne_nil l hne
      rcases hmod x.time_ with hx' | hx'
      · exact absurd hx' (hnone x hx)
      · exact absurd hx' (h.bucket_nil hn hs.next hb x hx)
    | cons e rest =>
      obtain ⟨hi, -, -, hmin⟩ :=
        h.head_bucket hn hs.next (by rw [hb, List.head?_cons] : _ = some e)
      refine ⟨e, s.i, s.searched, by rw [lastBucket, hmin_e, hb], hi, by rw [hb]; rfl,
        fun x hx => ?_⟩
      exact hmin x hx ((hmod x.time_).resolve_left (hnone x hx))
  | some m =>
    obtain ⟨h1, h2, h3⟩ := hs.some m hmin_e
    cases hb : (c.buckets_ s.i).list_ with
    | nil =>
      refine ⟨m.1, m.2, s.searched, by rw [lastBucket, hmin_e, hb], h1, h2, fun x hx => ?_⟩
      exact h3 x hx ((hmod x.time_).resolve_right (h.bucket_nil hn hs.next hb x hx))
    | cons e rest =>
      obtain ⟨hi, -, -, hmin⟩ :=
        h.head_bucket hn hs.next (by rw [hb, List.head?_cons] : _ = some e)
      rw [lastBucket, hmin_e, hb]
      simp only
      split
      · rename_i hlt
        refine ⟨m.1, m.2, s.searched, rfl, h1, h2, fun x hx => ?_⟩
        rcases hmod x.time_ with hx' | hx'
        · exact h3 x hx hx'
        · exact hlt.le.trans (hmin x hx hx')
      · rename_i hle
        refine ⟨e, s.i, s.searched, rfl, hi, by rw [hb]; rfl, fun x hx => ?_⟩
        rcases hmod x.time_ with hx' | hx'
        · exact (not_lt.mp hle).trans (h3 x hx hx')
        · exact hmin x hx hx'

/-- **The search finds an earliest event.** -/
theorem headScan_spec (h : c.Searchable l) (hne : l ≠ []) :
    ∃ e i n, c.headScan = some (e, i, n) ∧ Found c l e i := by
  have hn := h.holds.four_le
  have hw := h.holds.width_pos
  have hn' : (4 : ℚ) ≤ c.nbuckets_ := by exact_mod_cast hn
  have hlast : c.lastbucket_ < c.nbuckets_ := by
    rw [h.ready.bucket]
    exact h.holds.hash_lt h.ready.nonneg
  have hstop : (if c.lastbucket_ ≠ 0 then c.lastbucket_ - 1 else c.nbuckets_ - 1)
      = (c.lastbucket_ + (c.nbuckets_ - 1)) % c.nbuckets_ := by
    split
    · rw [show c.lastbucket_ + (c.nbuckets_ - 1) = c.lastbucket_ - 1 + c.nbuckets_ by omega,
        Nat.add_mod_right, Nat.mod_eq_of_lt (by omega)]
    · rw [Nat.mod_eq_of_lt (by omega)]
      omega
  have hstart : Seen c l 0 ⟨c.lastbucket_, none, 0⟩ :=
    ⟨(Nat.mod_eq_of_lt hlast).symm, by simp, by simp, by simp⟩
  rw [headScan]
  simp only [hstop]
  rcases calDequeue_spec (T := c.diff0_) h hstart (by omega)
    (by rw [h.ready.diff0]; push_cast; nlinarith) (by rw [h.ready.diff0]; push_cast; nlinarith) with
    ⟨s₁, h1, hs₁⟩ | ⟨e, s', h1, hf⟩
  · rcases calDequeue_spec (T := c.diff1_) h hs₁ (by omega)
      (by rw [h.ready.diff1]; push_cast; nlinarith)
      (by rw [h.ready.diff1]; push_cast; nlinarith) with ⟨s₂, h2, hs₂⟩ | ⟨e, s', h2, hf⟩
    · rcases scanRest_spec h c.nbuckets_ hs₂ (by omega) (by omega) (by omega) with
        ⟨s₃, h3, hs₃⟩ | ⟨e, s', h3, hf⟩
      · obtain ⟨e, i, n, h4, h5⟩ := lastBucket_spec h hne hs₃
        refine ⟨e, i, n, ?_, h5⟩
        simp only [h1, h2, h3, bind, Except.bind]
        exact h4
      · exact ⟨e, s'.i, s'.searched, by simp only [h1, h2, h3, bind, Except.bind], hf⟩
    · exact ⟨e, s'.i, s'.searched, by simp only [h1, h2, bind, Except.bind], hf⟩
  · exact ⟨e, s'.i, s'.searched, by simp only [h1, bind, Except.bind], hf⟩

end Ns2.Common.CalendarScheduler
