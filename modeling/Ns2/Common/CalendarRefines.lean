import Ns2.Common.CalendarHead
import Ns2.Lib.Simulation

/-!
# The calendar queue refines the list

* `insert_spec`, `deque_spec`, `cancel_spec` — what each operation does to the contents.
* `Refines` — the simulation relation: the calendar holds the events of the sorted list.
* `calendar_refines` — along every run the two schedulers give the same events, and hold
  the same events.
-/

namespace Ns2.Common

open Stable

namespace CalendarScheduler

variable {c : CalendarScheduler} {l : List Event} {e x : Event}

/-! ## `insert` -/

theorem Searchable.turnBack (h : c.Searchable l) (he : 0 ≤ e.time_) :
    (c.turnBack e).Searchable l ∧ (c.turnBack e).cal_clock_ ≤ e.time_ := by
  rw [CalendarScheduler.turnBack]
  split
  · rename_i hgt
    refine ⟨⟨h.holds.frame, ⟨h.ready.sqrt_pos, he, rfl, h.ready.diff0, h.ready.diff1,
      h.ready.diff2⟩, fun x hx => ?_⟩, le_rfl⟩
    exact hgt.le.trans (h.clock_le x hx)
  · rename_i hle
    exact ⟨h, not_lt.mp hle⟩

theorem Searchable.link (h : c.Searchable l) (he : c.cal_clock_ ≤ e.time_) :
    (c.link e).Searchable (l ++ [e]) := by
  have hnn : 0 ≤ e.time_ := h.ready.nonneg.trans he
  obtain ⟨h1, h2, h3, h4⟩ := place_spec (e := e) (h.holds.sorted _ (h.holds.hash_lt hnn))
  have hput := h.holds.put (fun l => l ++ [e]) hnn (fun l => List.perm_append_singleton e l)
    (fun k l => by
      rw [cls_append, cls_cons, cls_nil]
      split
      · rfl
      · exact List.append_nil _) h1 h2 h3 h4
  refine ⟨hput.frame, h.ready.frame, fun x hx => ?_⟩
  rcases List.mem_append.mp hx with hx | hx
  · exact h.clock_le x hx
  · rw [List.mem_singleton.mp hx]
    exact he

/-- A resize does not matter to the search. -/
theorem Searchable.resize {newsize : ℕ} (h : c.Searchable l) (hn : 0 < newsize) :
    ∃ c', c.resize newsize c.cal_clock_ = some c' ∧ c'.Searchable l ∧
      c'.cal_clock_ = c.cal_clock_ := by
  obtain ⟨c', h1, h2, h3, h4⟩ := resize_spec h.holds h.ready hn
  refine ⟨c', h1, ⟨h2, h3, ?_⟩, h4⟩
  rw [h4]
  exact h.clock_le

/-- `insert` puts an event at the end of its class. -/
theorem insert_spec (h : c.Searchable l) (he : 0 ≤ e.time_) :
    ∃ c', c.insert e = some c' ∧ c'.Searchable (l ++ [e]) := by
  obtain ⟨h1, h2⟩ := h.turnBack he
  have h3 := h1.link h2
  rw [insert]
  split
  · have hn := h3.holds.four_le
    have hpos : 0 < ((c.turnBack e).link e).nbuckets_ * 2 := by omega
    obtain ⟨c', h4, h5, -⟩ := h3.resize hpos
    exact ⟨c', h4, h5⟩
  · exact ⟨_, rfl, h3⟩

/-! ## `deque` -/

/-- The first event of the sorted list is at the head of its bucket. -/
theorem Holds.head_bucket (h : c.Holds (e :: l)) (hl : IsSorted Event.time_ (e :: l)) :
    ∃ rest, (c.buckets_ (c.calendarHash e.time_)).list_ = e :: rest := by
  have hnn := h.nonneg e List.mem_cons_self
  have hlt := h.hash_lt hnn
  have hmem : e ∈ (c.buckets_ (c.calendarHash e.time_)).list_ :=
    (h.mem_bucket_iff hlt).mpr ⟨List.mem_cons_self, rfl⟩
  obtain ⟨y, rest, hb⟩ := List.exists_cons_of_ne_nil (List.ne_nil_of_mem hmem)
  have hclass := h.classes _ hnn
  have hsorted := h.sorted _ hlt
  rw [hb] at hclass hsorted hmem
  have hy : y ∈ e :: l := ((h.mem_bucket_iff hlt).mp (by rw [hb]; exact List.mem_cons_self)).1
  have htime : y.time_ = e.time_ := le_antisymm (hsorted.head_le e hmem) (hl.head_le y hy)
  rw [cls_cons, cls_cons, if_pos htime, if_pos rfl] at hclass
  rw [hb, (List.cons.inj hclass).1]
  exact ⟨rest, rfl⟩

/-- `head` finds the first event of the sorted list. -/
theorem head_spec (h : c.Searchable (e :: l)) (hl : IsSorted Event.time_ (e :: l)) :
    ∃ c', c.head = some (c', e) ∧ c'.Searchable (e :: l) ∧ c'.cal_clock_ = e.time_ := by
  obtain ⟨x, i, n, hscan, hlt, hhead, hle⟩ := headScan_spec h (List.cons_ne_nil e l)
  obtain ⟨rest, hrest⟩ := List.head?_eq_some_iff.mp hhead
  obtain ⟨hx, hi⟩ := (h.holds.mem_bucket_iff (x := x) hlt).mp (by rw [hrest]; exact List.mem_cons_self)
  have htime : x.time_ = e.time_ := le_antisymm (hle e List.mem_cons_self) (hl.head_le x hx)
  obtain ⟨rest', hrest'⟩ := h.holds.head_bucket hl
  rw [← htime, hi, hrest] at hrest'
  obtain rfl : x = e := (List.cons.inj hrest').1
  exact ⟨_, congrArg (Option.map _) hscan, ⟨h.holds.frame, ⟨h.ready.sqrt_pos, h.holds.nonneg x hx,
    hi.symm, h.ready.diff0, h.ready.diff1, h.ready.diff2⟩, hl.head_le⟩, rfl⟩

/-- The sampling of gaps leaves the contents and the clock alone. -/
theorem sampleGap_spec (h : c.Searchable l) :
    ∃ c', c.sampleGap e = some c' ∧ c'.Searchable l ∧ c'.cal_clock_ = c.cal_clock_ := by
  rw [sampleGap]
  split
  · exact ⟨c, rfl, h, rfl⟩
  split
  · exact ⟨_, rfl, ⟨h.holds.frame, h.ready.frame, h.clock_le⟩, rfl⟩
  split
  · have h₁ : Searchable { c with
        avg_gap_ := (e.time_ - c.last_time_) / ((c.gap_num_ + 1 : ℕ) : ℚ)
        gap_num_ := 0
        last_time_ := e.time_
        round_num_ := c.round_num_ + 1 } l := ⟨h.holds.frame, h.ready.frame, h.clock_le⟩
    simp only
    split
    · have hn := h.holds.four_le
      obtain ⟨c', h2, h3, h4⟩ := h₁.resize (by omega : 0 < c.nbuckets_)
      refine ⟨_, congrArg (Option.map _) h2, ⟨h3.holds.frame, h3.ready.frame, h3.clock_le⟩, h4⟩
    split
    · exact ⟨_, rfl, ⟨h₁.holds.frame, h₁.ready.frame, h₁.clock_le⟩, rfl⟩
    · exact ⟨_, rfl, h₁, rfl⟩
  · exact ⟨_, rfl, ⟨h.holds.frame, h.ready.frame, h.clock_le⟩, rfl⟩

/-- The test of `deque` for the last event of its time. -/
theorem uniqueTiming_head {rest : List Event} (h : IsSorted Event.time_ (e :: rest)) :
    uniqueTiming e rest.head?.toList = true ↔ ∀ y ∈ rest, y.time_ ≠ e.time_ := by
  cases rest with
  | nil => simp [uniqueTiming]
  | cons x rest =>
    simp only [uniqueTiming, List.head?_cons, Option.toList_some, List.all_cons, List.all_nil,
      Bool.and_true, decide_eq_true_eq]
    constructor
    · intro hx y hy
      have h1 := h.head_le x (by simp)
      have h2 := (h.sublist (List.sublist_cons_self e _)).head_le y hy
      exact ((lt_of_le_of_ne h1 hx.symm).trans_le h2).ne'
    · exact fun hall => hall x List.mem_cons_self

/-- Unlinking the event that `head` has found. -/
theorem unlinkHead_spec (h : c.Searchable (e :: l)) (hl : IsSorted Event.time_ (e :: l))
    (hclock : c.cal_clock_ = e.time_) :
    ∃ c', c.unlinkHead e = some c' ∧ c'.Searchable l := by
  obtain ⟨rest, hrest⟩ := h.holds.head_bucket hl
  have hlast : c.lastbucket_ = c.calendarHash e.time_ := by rw [h.ready.bucket, hclock]
  have hsorted := h.holds.sorted _ (h.holds.hash_lt (h.holds.nonneg e List.mem_cons_self))
  rw [hrest] at hsorted
  have htake := h.holds.take (b := rest) List.mem_cons_self (by rw [hrest, List.erase_cons_head])
    (uniqueTiming_head hsorted)
  rw [List.erase_cons_head] at htake
  have h' : (c.unlink (c.calendarHash e.time_) rest (uniqueTiming e rest.head?.toList)).Searchable
      l := ⟨htake, h.ready.frame, fun x hx => h.clock_le x (List.mem_cons_of_mem e hx)⟩
  rw [unlinkHead, hlast, hrest]
  simp only [ne_eq, not_true_eq_false, if_false]
  split
  · have hn := h'.holds.four_le
    have hpos : 0 < (c.unlink (c.calendarHash e.time_) rest
        (uniqueTiming e rest.head?.toList)).nbuckets_ / 2 := by omega
    obtain ⟨c', h1, h2, -⟩ := h'.resize hpos
    exact ⟨c', h1, h2⟩
  · exact ⟨_, rfl, h'⟩

/-- `deque` takes out the first event of the sorted list. -/
theorem deque_spec (h : c.Searchable (e :: l)) (hl : IsSorted Event.time_ (e :: l)) :
    ∃ c', c.deque = some (c', some e) ∧ c'.Searchable l := by
  obtain ⟨c₁, h1, h2, h3⟩ := head_spec h hl
  obtain ⟨c₂, h4, h5, h6⟩ := sampleGap_spec (e := e) h2
  obtain ⟨c₃, h7, h8⟩ := unlinkHead_spec h5 hl (h6.trans h3)
  have hsize : c.qsize_ ≠ 0 := by
    rw [h.holds.size]
    simp
  refine ⟨c₃, ?_, h8⟩
  rw [deque, if_neg hsize, h1, Option.bind_some, h4, Option.bind_some, h7, Option.map_some]

theorem deque_nil (h : c.Searchable []) : c.deque = some (c, none) := by
  have hsize : c.qsize_ = 0 := h.holds.size
  rw [deque, if_pos hsize]

/-! ## `cancel` -/

/-- The test of `cancel` for the last event of its time. -/
theorem uniqueTiming_circle {A B : List Event} (h : IsSorted Event.time_ (A ++ e :: B)) :
    uniqueTiming e ((B ++ A).head?.toList ++ (B ++ A).getLast?.toList) = true ↔
      ∀ y ∈ A ++ B, y.time_ ≠ e.time_ := by
  have hA : ∀ a ∈ A, a.time_ ≤ e.time_ := fun a ha =>
    (List.pairwise_append.mp h).2.2 a ha e List.mem_cons_self
  have hB : ∀ b ∈ B, e.time_ ≤ b.time_ := fun b hb =>
    (List.pairwise_cons.mp (List.pairwise_append.mp h).2.1).1 b hb
  simp only [uniqueTiming, List.all_eq_true, List.mem_append, Option.mem_toList,
    decide_eq_true_eq]
  constructor
  · intro hall y hy heq
    rcases hy with hy | hy
    · -- the last event before `e` has the same time as well
      obtain ⟨A, a, rfl⟩ := (List.eq_nil_or_concat A).resolve_left (List.ne_nil_of_mem hy)
      rw [List.concat_eq_append] at *
      refine hall a (Or.inr ?_) (le_antisymm (hA a (by simp)) ?_)
      · rw [← List.append_assoc, List.getLast?_concat]
      · rw [← heq]
        exact IsSorted.le_last (h.sublist (List.sublist_append_left _ _)) y hy
    · obtain ⟨b, B, rfl⟩ := List.exists_cons_of_ne_nil (List.ne_nil_of_mem hy)
      refine hall b (Or.inl rfl) (le_antisymm ?_ (hB b List.mem_cons_self))
      rw [← heq]
      refine IsSorted.head_le (h.sublist ?_) y hy
      exact (List.sublist_cons_self e _).trans (List.sublist_append_right _ _)
  · intro hall y hy
    refine hall y ?_
    rcases hy with hy | hy
    · exact (List.mem_append.mp (List.mem_of_head? hy)).symm
    · exact (List.mem_append.mp (List.mem_of_getLast? hy)).symm

theorem takeWhile_ne {A B : List Event} (h : e ∉ A) :
    (A ++ e :: B).takeWhile (fun x => x ≠ e) = A ∧
      (A ++ e :: B).dropWhile (fun x => x ≠ e) = e :: B := by
  have hA : ∀ x ∈ A, decide (x ≠ e) = true := fun x hx =>
    decide_eq_true (ne_of_mem_of_not_mem hx h)
  rw [List.takeWhile_append_of_pos hA, List.dropWhile_append_of_pos hA, List.takeWhile_cons,
    List.dropWhile_cons]
  simp

/-- `cancel` takes out the event, and no `assert` fails. -/
theorem cancel_spec (h : c.Searchable l) (hu : 0 < e.uid_) (he : e ∈ l) :
    ∃ c', c.cancel e = some (c', { e with uid_ := -e.uid_ }) ∧ c'.Searchable (l.erase e) := by
  have hlt := h.holds.hash_lt (h.holds.nonneg e he)
  obtain ⟨A, B, hA, hb, herase⟩ :=
    List.exists_erase_eq ((h.holds.mem_bucket_iff hlt).mpr ⟨he, rfl⟩)
  have hsorted := h.holds.sorted _ hlt
  rw [hb] at hsorted
  have htake := h.holds.take (b := A ++ B) he herase.symm (uniqueTiming_circle hsorted)
  rw [cancel, if_neg (not_le.mpr hu)]
  simp only [hb, (takeWhile_ne hA).1, (takeWhile_ne hA).2]
  rw [if_neg]
  · exact ⟨_, rfl, htake, h.ready.frame,
      fun x hx => h.clock_le x (List.mem_of_mem_erase hx)⟩
  · have hcount := htake.count _ hlt
    have hstat := htake.stat
    have hlist : ((c.unlink (c.calendarHash e.time_) (A ++ B) (uniqueTiming e
        ((B ++ A).head?.toList ++ (B ++ A).getLast?.toList))).buckets_
          (c.calendarHash e.time_)).list_ = A ++ B := by
      simp [unlink, setBucket]
    rintro (⟨-, hneg | hneg⟩ | ⟨hzero, hne⟩)
    · have : (0 : ℤ) ≤ distinct Event.time_ (l.erase e) := Int.natCast_nonneg _
      exact absurd (hstat.symm.trans_lt hneg) (not_lt.mpr this)
    · exact absurd (hcount.symm.trans_lt hneg) (not_lt.mpr (Int.natCast_nonneg _))
    · have hd := hcount.symm.trans hzero
      rw [Int.natCast_eq_zero, distinct_eq_zero] at hd
      exact hne (hlist.symm.trans hd)

/-- An event that is not in the queue cannot be cancelled. -/
theorem cancel_none (h : c.Searchable l) (hu : 0 < e.uid_) (hnn : 0 ≤ e.time_) (he : e ∉ l) :
    c.cancel e = none := by
  have hmem : e ∉ (c.buckets_ (c.calendarHash e.time_)).list_ := fun hin =>
    he ((h.holds.mem_bucket_iff (h.holds.hash_lt hnn)).mp hin).1
  have hdrop : (c.buckets_ (c.calendarHash e.time_)).list_.dropWhile (fun x => x ≠ e) = [] := by
    rw [List.dropWhile_eq_nil_iff]
    exact fun x hx => decide_eq_true (ne_of_mem_of_not_mem hx hmem)
  rw [cancel, if_neg (not_le.mpr hu)]
  simp only [hdrop]

end CalendarScheduler

/-! ## The list scheduler -/

namespace ListScheduler

variable {l : List Event} {e : Event}

/-- `insert` puts an event between those up to its time and those after it. -/
theorem insert_split (h : IsSorted Event.time_ l) (e : Event) :
    ∃ A B, l = A ++ B ∧ insert l e = A ++ e :: B ∧
      (∀ a ∈ A, a.time_ ≤ e.time_) ∧ ∀ b ∈ B, e.time_ < b.time_ := by
  refine ⟨l.takeWhile fun p => ¬ e.time_ < p.time_, l.dropWhile fun p => ¬ e.time_ < p.time_,
    List.takeWhile_append_dropWhile.symm, rfl, fun b hb => ?_, fun b hb => ?_⟩
  · simpa using List.mem_takeWhile_imp hb
  · have := h.dropWhile_not (p := fun p : Event => ¬ e.time_ < p.time_)
      (fun x y hxy hy => by
        simp only [not_lt, decide_eq_true_eq] at hy ⊢
        exact hxy.trans hy) b hb
    simpa using this

theorem length_insert (l : List Event) (e : Event) : (insert l e).length = l.length + 1 := by
  have h := congrArg List.length
    (List.takeWhile_append_dropWhile (p := fun p : Event => ¬ e.time_ < p.time_) (l := l))
  rw [List.length_append] at h
  rw [insert, List.length_append, List.length_cons, ← add_assoc, h]

/-- `insert` keeps the list sorted, and puts an event at the end of its class. -/
theorem insert_spec (h : IsSorted Event.time_ l) :
    IsSorted Event.time_ (insert l e) ∧
      ∀ k, cls Event.time_ k (insert l e) = cls Event.time_ k (l ++ [e]) := by
  obtain ⟨A, B, rfl, hins, hbefore, hafter⟩ := insert_split h e
  rw [hins]
  exact ⟨h.insert hbefore fun b hb => (hafter b hb).le, fun k => cls_insert_after hafter⟩

end ListScheduler

/-! ## Runs -/

/-- What is done to a scheduler.  Time starts at zero. -/
inductive Op where
  /-- `insert(e)`. -/
  | insert (e : Event) (h : 0 ≤ e.time_)
  /-- `deque()`. -/
  | deque
  /-- `cancel(e)`. -/
  | cancel (e : Event) (h : 0 ≤ e.time_)

/-- One operation of the list scheduler; the output is the event that has left. -/
def ListScheduler.step (queue_ : List Event) : Op → Option (List Event × Option Event)
  | .insert e _ => some (ListScheduler.insert queue_ e, none)
  | .deque => some (ListScheduler.deque queue_)
  | .cancel e _ => (ListScheduler.cancel queue_ e).map fun r => (r.1, some r.2)

/-- One operation of the calendar queue. -/
def CalendarScheduler.step (c : CalendarScheduler) : Op → Option (CalendarScheduler × Option Event)
  | .insert e _ => (c.insert e).map (·, none)
  | .deque => c.deque
  | .cancel e _ => (c.cancel e).map fun r => (r.1, some r.2)

/-- The calendar holds the events of the sorted list. -/
structure Refines (c : CalendarScheduler) (queue_ : List Event) : Prop where
  /-- The calendar is in order, and its classes are those of the list. -/
  searchable : c.Searchable queue_
  /-- The list is sorted. -/
  sorted : IsSorted Event.time_ queue_

open Simulation

/-- Every operation does the same to both schedulers. -/
theorem Refines.step {c : CalendarScheduler} {queue_ : List Event} (h : Refines c queue_) (o : Op) :
    Agree Refines (c.step o) (ListScheduler.step queue_ o) := by
  cases o with
  | insert e he =>
    obtain ⟨c', h1, h2⟩ := CalendarScheduler.insert_spec h.searchable he
    obtain ⟨h3, h4⟩ := ListScheduler.insert_spec (e := e) h.sorted
    rw [CalendarScheduler.step, h1]
    refine Option.Rel.some ⟨⟨⟨h2.holds.congr fun k => (h4 k).symm, h2.ready, fun x hx => ?_⟩, h3⟩, rfl⟩
    exact h2.clock_le x ((mem_congr h4).mp hx)
  | deque =>
    cases queue_ with
    | nil =>
      rw [CalendarScheduler.step, CalendarScheduler.deque_nil h.searchable]
      exact Option.Rel.some ⟨h, rfl⟩
    | cons e queue_ =>
      obtain ⟨c', h1, h2⟩ := CalendarScheduler.deque_spec h.searchable h.sorted
      rw [CalendarScheduler.step, h1]
      exact Option.Rel.some ⟨⟨h2, h.sorted.sublist (List.sublist_cons_self e queue_)⟩, rfl⟩
  | cancel e he =>
    rw [CalendarScheduler.step, ListScheduler.step, ListScheduler.cancel]
    by_cases hu : e.uid_ ≤ 0
    · rw [CalendarScheduler.cancel, if_pos hu, if_pos hu]
      exact Option.Rel.some ⟨h, rfl⟩
    · rw [if_neg hu]
      by_cases hmem : e ∈ queue_
      · obtain ⟨c', h1, h2⟩ := CalendarScheduler.cancel_spec h.searchable (not_le.mp hu) hmem
        rw [h1, if_pos hmem]
        exact Option.Rel.some ⟨⟨h2, h.sorted.sublist List.erase_sublist⟩, rfl⟩
      · rw [CalendarScheduler.cancel_none h.searchable (not_le.mp hu) he hmem, if_neg hmem]
        exact Option.Rel.none

/-- The constructor builds an empty calendar. -/
theorem refines_new {raw : CalendarScheduler} (hsqrt : ∀ x, 0 < x → 0 < raw.sqrt x) :
    Refines (CalendarScheduler.new raw) [] := by
  refine ⟨⟨CalendarScheduler.Holds.reinit one_pos le_rfl, ?_, by simp⟩, IsSorted.nil⟩
  rw [CalendarScheduler.new]
  refine CalendarScheduler.Ready.reinit ?_ le_rfl
  simp only
  split
  · exact hsqrt
  · exact hsqrt

/-- **The calendar queue refines the list.**  Whatever events are inserted, dequeued and
cancelled, the calendar queue returns the same events as the list ordered by time and
order of insertion, and holds the same events, those of the same time in the same order;
it fails when the list scheduler does, and only then. -/
theorem calendar_refines (raw : CalendarScheduler) (hsqrt : ∀ x, 0 < x → 0 < raw.sqrt x)
    (ops : List Op) :
    Agree Refines (run CalendarScheduler.step (CalendarScheduler.new raw) ops)
      (run ListScheduler.step [] ops) :=
  run_rel (fun _ _ o h => h.step o) ops _ _ (refines_new hsqrt)

/-- A square root, rounded down to a multiple of the inverse of the denominator. -/
def sqrtDown (x : ℚ) : ℚ := (x.num.toNat * x.den).sqrt / x.den

theorem sqrtDown_pos (x : ℚ) (h : 0 < x) : 0 < sqrtDown x := by
  have hnum := Rat.num_pos.mpr h
  have hprod : 0 < x.num.toNat * x.den := Nat.mul_pos (by omega) x.den_pos
  exact div_pos (Nat.cast_pos.mpr (Nat.sqrt_pos.mpr hprod)) (Nat.cast_pos.mpr x.den_pos)

/-- A scheduler before its constructor has run, with adjustment of the width. -/
def unset : CalendarScheduler :=
  { sqrt := sqrtDown, min_bin_width_ := 0, adjust_new_width_interval_ := 10,
    time_to_newwidth := 0, head_search_ := 0, insert_search_ := 0, round_num_ := 0,
    gap_num_ := 0, last_time_ := 0, avg_gap_ := 0, width_ := 0, diff0_ := 0, diff1_ := 0,
    diff2_ := 0, stat_qsize_ := 0, nbuckets_ := 0, lastbucket_ := 0, top_threshold_ := 0,
    bot_threshold_ := 0, buckets_ := fun _ => ⟨[], 0⟩, qsize_ := 0, cal_clock_ := 0 }

/-- Two events of one time, an earlier one that is cancelled, and a later one. -/
theorem calendar_refines_cancel :
    Agree Refines (run CalendarScheduler.step (CalendarScheduler.new unset)
        [.insert ⟨1, 5⟩ (by decide), .insert ⟨2, 9⟩ (by decide), .insert ⟨3, 5⟩ (by decide),
          .insert ⟨4, 2⟩ (by decide), .cancel ⟨4, 2⟩ (by decide), .deque, .deque])
      (some ([⟨2, 9⟩], [none, none, none, none, some ⟨-4, 2⟩, some ⟨1, 5⟩, some ⟨3, 5⟩])) :=
  calendar_refines unset sqrtDown_pos _

end Ns2.Common
