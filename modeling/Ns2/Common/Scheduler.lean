import Mathlib

/-!
# Event schedulers

Two schedulers of `common/scheduler.cc`, with times as exact rationals: the sorted
list, and the calendar queue that hashes events into buckets by time.

An event is told from another one by its value: `Scheduler::schedule` gives every event
it inserts a `uid_` of its own.  A bucket of the calendar is a circular list; it is
written from its head on, so that the node before the head is the last of the list.
A call that would dereference `NULL`, reach `abort()` or fail an `assert` is `none`.

* `ListScheduler.insert`, `cancel`, `deque`.
* `CalendarScheduler.insert`, `insert2`, `deque`, `reinit`, `resize`, `newwidth`,
  `cancel`, and `headScan`, the year-based search of `head`.
-/

namespace Ns2.Common

/-- The part of an `Event` the schedulers look at. -/
structure Event where
  /-- Unique ID; negative or zero when the event is not in a queue. -/
  uid_ : ℤ
  /-- Time at which the event is ready. -/
  time_ : ℚ
  deriving DecidableEq, Repr

/-! ## The list scheduler -/

namespace ListScheduler

/-- `ListScheduler::insert`: before the first event with a later time. -/
def insert (queue_ : List Event) (e : Event) : List Event :=
  queue_.takeWhile (fun p => ¬ e.time_ < p.time_) ++
    e :: queue_.dropWhile (fun p => ¬ e.time_ < p.time_)

/-- `ListScheduler::cancel`.  The event leaves the queue with its `uid_` negated. -/
def cancel (queue_ : List Event) (e : Event) : Option (List Event × Event) :=
  if e.uid_ ≤ 0 then some (queue_, e)
  else if e ∈ queue_ then some (queue_.erase e, { e with uid_ := -e.uid_ })
  else none

/-- `ListScheduler::deque`. -/
def deque : List Event → List Event × Option Event
  | [] => ([], none)
  | e :: queue_ => (queue_, some e)

end ListScheduler

/-! ## The calendar queue -/

/-- `struct Bucket`. -/
structure Bucket where
  /-- The events, from the head on. -/
  list_ : List Event
  /-- Number of distinct times among them. -/
  count_ : ℤ
  deriving DecidableEq, Repr

/-- A `CalendarScheduler`. -/
structure CalendarScheduler where
  /-- `sqrt` of the C library. -/
  sqrt : ℚ → ℚ
  /-- Minimum width of a bucket. -/
  min_bin_width_ : ℚ
  /-- How many failed adjustments make for a new width; zero disables adjustment. -/
  adjust_new_width_interval_ : ℕ
  /-- Failed adjustments left. -/
  time_to_newwidth : ℕ
  /-- Buckets looked at by `head`. -/
  head_search_ : ℕ
  /-- Events looked at by `insert`. -/
  insert_search_ : ℕ
  /-- Finished windows of gap samples. -/
  round_num_ : ℕ
  /-- Gap samples in this window. -/
  gap_num_ : ℕ
  /-- Departure time of the first event of the window. -/
  last_time_ : ℚ
  /-- Average gap in the last window. -/
  avg_gap_ : ℚ
  /-- Width of a bucket. -/
  width_ : ℚ
  /-- Wrap-around check of the first bucket. -/
  diff0_ : ℚ
  /-- Wrap-around check of the second bucket. -/
  diff1_ : ℚ
  /-- Wrap-around check of the others. -/
  diff2_ : ℚ
  /-- Number of distinct times in the queue. -/
  stat_qsize_ : ℤ
  /-- Number of buckets. -/
  nbuckets_ : ℕ
  /-- The bucket of `cal_clock_`. -/
  lastbucket_ : ℕ
  /-- More distinct times than this double the number of buckets. -/
  top_threshold_ : ℤ
  /-- Fewer distinct times than this halve the number of buckets. -/
  bot_threshold_ : ℤ
  /-- The buckets. -/
  buckets_ : ℕ → Bucket
  /-- Number of events in the queue. -/
  qsize_ : ℕ
  /-- The time the search starts from. -/
  cal_clock_ : ℚ

/-- The cast of a `double` to `int`: towards zero. -/
def toInt (x : ℚ) : ℤ := x.num.tdiv x.den

theorem toInt_of_nonneg {x : ℚ} (hx : 0 ≤ x) : toInt x = ⌊x⌋₊ := by
  rw [toInt, Int.tdiv_eq_ediv_of_nonneg (Rat.num_nonneg.mpr hx), ← Rat.floor_def',
    ← Int.natCast_floor_eq_floor hx]

/-- A positive number that the cast reaches is not above what was cast. -/
theorem le_of_le_toInt {x : ℚ} {n : ℤ} (hn : 0 < n) (h : n ≤ toInt x) : (n : ℚ) ≤ x := by
  rcases le_or_gt 0 x with hx | hx
  · rw [toInt_of_nonneg hx, Int.natCast_floor_eq_floor hx] at h
    exact Int.le_floor.mp h
  · have hneg : toInt x ≤ 0 := by
      have hnum : 0 ≤ -x.num := neg_nonneg.mpr (Rat.num_neg.mpr hx).le
      have hdiv : 0 ≤ (-x.num).tdiv x.den := Int.tdiv_nonneg hnum (Int.natCast_nonneg _)
      rw [Int.neg_tdiv] at hdiv
      exact neg_nonneg.mp hdiv
    omega

/-- `fmod` of the C library. -/
def fmod (x y : ℚ) : ℚ := x - y * toInt (x / y)

namespace CalendarScheduler

/-- `CALENDAR_HASH(t)`. -/
def calendarHash (c : CalendarScheduler) (t : ℚ) : ℕ :=
  (toInt (fmod (t / c.width_) c.nbuckets_)).toNat

/-- Assign a list to a bucket, and add `d` to the two counters of distinct times. -/
def setBucket (c : CalendarScheduler) (i : ℕ) (l : List Event) (d : ℤ) : CalendarScheduler :=
  { c with
    buckets_ := Function.update c.buckets_ i ⟨l, (c.buckets_ i).count_ + d⟩
    stat_qsize_ := c.stat_qsize_ + d }

/-! ### Linking an event in -/

/-- The place of an event in its bucket according to `insert`: after the events of the
same time.  With it come "unique timing" and the number of steps of the search. -/
def place (e : Event) : List Event → List Event × Bool × ℕ
  | [] => ([e], true, 0)
  | head :: tail =>
    if e.time_ < head.time_ then (e :: head :: tail, true, 1)
    else
      let before := (head :: tail).rdropWhile (fun x => e.time_ < x.time_)
      let after := (head :: tail).rtakeWhile (fun x => e.time_ < x.time_)
      (before ++ e :: after, (before.getLast?.map fun x => decide (x.time_ < e.time_)).getD true,
        1 + after.length)

/-- The place of an event according to `insert2`: before the events of the same time.
With it comes "unique timing", read off the event after it on the circular list. -/
def place2 (e : Event) : List Event → List Event × Bool
  | [] => ([e], true)
  | head :: tail =>
    if e.time_ > ((head :: tail).getLast (List.cons_ne_nil head tail)).time_ then
      (head :: tail ++ [e], head.time_ ≠ e.time_)
    else
      let before := (head :: tail).takeWhile (fun x => e.time_ > x.time_)
      let after := (head :: tail).dropWhile (fun x => e.time_ > x.time_)
      (before ++ e :: after,
        ((after ++ before).head?.map fun x => decide (x.time_ ≠ e.time_)).getD true)

/-- `insert2`. -/
def insert2 (c : CalendarScheduler) (e : Event) : CalendarScheduler :=
  let i := c.calendarHash e.time_
  let r := place2 e (c.buckets_ i).list_
  { c.setBucket i r.1 (if r.2 then 1 else 0) with qsize_ := c.qsize_ + 1 }

/-! ### Resizing -/

/-- `reinit(nbuck, bwidth, start)`. -/
def reinit (c : CalendarScheduler) (nbuck : ℕ) (bwidth start : ℚ) : CalendarScheduler :=
  let c' := { c with width_ := bwidth, nbuckets_ := nbuck }
  { c' with
    buckets_ := fun _ => ⟨[], 0⟩
    qsize_ := 0
    stat_qsize_ := 0
    lastbucket_ := c'.calendarHash start
    diff0_ := bwidth * nbuck / 2
    diff1_ := bwidth * nbuck / 2 + bwidth
    diff2_ := bwidth * nbuck
    bot_threshold_ := (nbuck / 2 : ℕ) - 2
    top_threshold_ := nbuck * 2 }

/-- Index of the fullest bucket: the loop of `newwidth`. -/
def maxBucket (c : CalendarScheduler) : ℕ :=
  (List.range c.nbuckets_).foldl
    (fun m i => if (c.buckets_ i).count_ > (c.buckets_ m).count_ then i else m) 0

/-- The width sampled from the fullest bucket. -/
def sampleWidth (c : CalendarScheduler) (newsize : ℕ) : Option ℚ :=
  let b := c.buckets_ c.maxBucket
  if b.count_ ≤ 4 then some c.width_
  else match b.list_.head?, b.list_.getLast? with
    | some first, some last =>
      let nw := last.time_ - first.time_
      if nw > 0 then some (nw / (if (newsize : ℤ) < b.count_ then (newsize : ℤ) else b.count_ : ℤ) * 4)
      else none
    | _, _ => none

/-- `newwidth(newsize)`. -/
def newwidth (c : CalendarScheduler) (newsize : ℕ) : Option (CalendarScheduler × ℚ) :=
  if c.adjust_new_width_interval_ ≠ 0 then
    let c' := { c with time_to_newwidth := c.adjust_new_width_interval_ }
    if c.avg_gap_ > 0 then some (c', c.avg_gap_ * 4) else (c'.sampleWidth newsize).map (c', ·)
  else (c.sampleWidth newsize).map (c, ·)

/-- The rest of `resize`: new buckets, and all events copied, each bucket from its tail
to its head. -/
def rebuild (c : CalendarScheduler) (newsize : ℕ) (bwidth start : ℚ) : CalendarScheduler :=
  let c' := (List.range c.nbuckets_).foldl
    (fun d i => (c.buckets_ i).list_.foldr (fun e d => d.insert2 e) d)
    (c.reinit newsize bwidth start)
  { c' with head_search_ := 0, insert_search_ := 0, round_num_ := 0 }

/-- The width `resize` tries when the number of buckets stays. -/
def adjustedWidth (c : CalendarScheduler) : ℚ :=
  let b₁ : ℚ := if c.head_search_ ≠ 0 then c.head_search_ else 1
  let b₂ : ℚ := if c.insert_search_ ≠ 0 then b₁ / c.insert_search_ else b₁
  c.sqrt b₂ * c.width_

/-- `resize(newsize, start)`. -/
def resize (c : CalendarScheduler) (newsize : ℕ) (start : ℚ) : Option CalendarScheduler :=
  if newsize = c.nbuckets_ then
    if c.adjustedWidth < c.min_bin_width_ then
      if c.time_to_newwidth > 0 then
        some { c with
          time_to_newwidth := c.time_to_newwidth - 1
          head_search_ := 0
          insert_search_ := 0
          round_num_ := 0 }
      else (c.newwidth newsize).map fun r => r.1.rebuild newsize r.2 start
    else some (c.rebuild newsize c.adjustedWidth start)
  else (c.newwidth newsize).map fun r => r.1.rebuild (if newsize < 4 then 4 else newsize) r.2 start

/-- The constructor, in memory that holds the counters of `raw`; they are only set when
adjustment is enabled. -/
def new (raw : CalendarScheduler) : CalendarScheduler :=
  let c :=
    if raw.adjust_new_width_interval_ ≠ 0 then
      { raw with
        avg_gap_ := -2
        last_time_ := -2
        gap_num_ := 0
        head_search_ := 0
        insert_search_ := 0
        round_num_ := 0
        time_to_newwidth := raw.adjust_new_width_interval_ }
    else raw
  -- `cal_clock_` starts as `clock_`, which is `SCHED_START`
  { c with cal_clock_ := 0 }.reinit 4 1 0

/-! ### `insert` -/

/-- The clock goes back when an event is before it ("may happen in RT scheduler"). -/
def turnBack (c : CalendarScheduler) (e : Event) : CalendarScheduler :=
  if c.cal_clock_ > e.time_ then
    { c with cal_clock_ := e.time_, lastbucket_ := c.calendarHash e.time_ }
  else c

/-- Linking an event into its bucket, with the counters. -/
def link (c : CalendarScheduler) (e : Event) : CalendarScheduler :=
  let i := c.calendarHash e.time_
  let r := place e (c.buckets_ i).list_
  { c.setBucket i r.1 (if r.2.1 then 1 else 0) with
    insert_search_ := c.insert_search_ + r.2.2
    qsize_ := c.qsize_ + 1 }

/-- `insert(e)`. -/
def insert (c : CalendarScheduler) (e : Event) : Option CalendarScheduler :=
  let c' := (c.turnBack e).link e
  if c'.stat_qsize_ > c'.top_threshold_ then c'.resize (c'.nbuckets_ * 2) c'.cal_clock_
  else some c'

/-! ### `head` and `deque` -/

/-- The variables of the search in `head`. -/
structure Scan where
  /-- The bucket to look at. -/
  i : ℕ
  /-- The earliest event seen so far, and its bucket `l`. -/
  min_e : Option (Event × ℕ)
  /-- Buckets looked at. -/
  searched : ℕ
  deriving DecidableEq, Repr

/-- The earlier one of the minimum so far and the head of bucket `i`. -/
def minEvent (min_e : Option (Event × ℕ)) (e : Event) (i : ℕ) : Event × ℕ :=
  match min_e with
  | none => (e, i)
  | some m => if m.1.time_ > e.time_ then (e, i) else m

/-- `CAL_DEQUEUE(x)` with `diff##x##_`; `Except.error` is the jump to `found_l`. -/
def calDequeue (c : CalendarScheduler) (diff : ℚ) (s : Scan) : Except (Event × Scan) Scan :=
  let next := if s.i + 1 = c.nbuckets_ then 0 else s.i + 1
  match (c.buckets_ s.i).list_ with
  | [] => .ok { s with i := next, searched := s.searched + 1 }
  | e :: _ =>
    if e.time_ - c.cal_clock_ < diff then
      .error (e, { s with searched := s.searched + 1 })
    else .ok { i := next, min_e := some (minEvent s.min_e e s.i), searched := s.searched + 1 }

/-- The loop of `CAL_DEQUEUE(2)`, up to the bucket before `lastbucket_`. -/
def scanRest (c : CalendarScheduler) (stop : ℕ) : ℕ → Scan → Except (Event × Scan) Scan
  | 0, s => .ok s
  | fuel + 1, s =>
    if s.i = stop then .ok s else (c.calDequeue c.diff2_ s).bind (c.scanRest stop fuel)

/-- One last bucket is left unchecked: take the minimum. -/
def lastBucket (c : CalendarScheduler) (s : Scan) : Option (Event × ℕ × ℕ) :=
  match s.min_e, (c.buckets_ s.i).list_ with
  | some m, [] => some (m.1, m.2, s.searched)
  | some m, e :: _ =>
    if m.1.time_ < e.time_ then some (m.1, m.2, s.searched) else some (e, s.i, s.searched)
  | none, e :: _ => some (e, s.i, s.searched)
  | none, [] => none

/-- The search of `head`: the event, its bucket, and the number of buckets looked at. -/
def headScan (c : CalendarScheduler) : Option (Event × ℕ × ℕ) :=
  let dec := if c.lastbucket_ ≠ 0 then c.lastbucket_ - 1 else c.nbuckets_ - 1
  let search := do
    let s ← c.calDequeue c.diff0_ ⟨c.lastbucket_, none, 0⟩
    let s ← c.calDequeue c.diff1_ s
    c.scanRest dec c.nbuckets_ s
  match search with
  | .error (e, s) => some (e, s.i, s.searched)
  | .ok s => c.lastBucket s

/-- `head()` of a queue that is not empty. -/
def head (c : CalendarScheduler) : Option (CalendarScheduler × Event) :=
  c.headScan.map fun r =>
    ({ c with
        head_search_ := c.head_search_ + r.2.2
        lastbucket_ := r.2.1
        cal_clock_ := r.1.time_ }, r.1)

/-- The block of `deque` that samples gaps and now and then adjusts the width. -/
def sampleGap (c : CalendarScheduler) (e : Event) : Option CalendarScheduler :=
  if c.adjust_new_width_interval_ = 0 then some c
  else if c.last_time_ < 0 then some { c with last_time_ := e.time_ }
  else if c.gap_num_ + 1 ≥ c.qsize_ then
    let c₁ :=
      { c with
        avg_gap_ := (e.time_ - c.last_time_) / ((c.gap_num_ + 1 : ℕ) : ℚ)
        gap_num_ := 0
        last_time_ := e.time_
        round_num_ := c.round_num_ + 1 }
    if c₁.round_num_ > 20 ∧
        (c₁.head_search_ > 2 * c₁.insert_search_ ∨ c₁.insert_search_ > 2 * c₁.head_search_) then
      (c₁.resize c₁.nbuckets_ c₁.cal_clock_).map fun c₂ => { c₂ with round_num_ := 0 }
    else if c₁.round_num_ > 100 then
      some { c₁ with round_num_ := 0, head_search_ := 0, insert_search_ := 0 }
    else some c₁
  else some { c with gap_num_ := c.gap_num_ + 1 }

/-- Taking an event out of bucket `i`, of which `rest` is left, with the counters. -/
def unlink (c : CalendarScheduler) (i : ℕ) (rest : List Event) (unique : Bool) :
    CalendarScheduler :=
  { c.setBucket i rest (if unique then -1 else 0) with qsize_ := c.qsize_ - 1 }

/-- The test before the counters of distinct times go down: the neighbours on the
circular list, if there are others than the event itself, have other times. -/
def uniqueTiming (e : Event) (neighbours : List Event) : Bool :=
  neighbours.all fun x => x.time_ ≠ e.time_

/-- The rest of `deque`: update the counters and unlink `e`, which `head` has found at
the head of bucket `lastbucket_`. -/
def unlinkHead (c : CalendarScheduler) (e : Event) : Option CalendarScheduler :=
  match (c.buckets_ c.lastbucket_).list_ with
  | [] => none
  | e' :: rest =>
    if e' ≠ e then none
    else
      let c' := c.unlink c.lastbucket_ rest (uniqueTiming e rest.head?.toList)
      if c'.stat_qsize_ < c'.bot_threshold_ then c'.resize (c'.nbuckets_ / 2) c'.cal_clock_
      else some c'

/-- `deque()`. -/
def deque (c : CalendarScheduler) : Option (CalendarScheduler × Option Event) :=
  if c.qsize_ = 0 then some (c, none)
  else c.head.bind fun r =>
    (r.1.sampleGap r.2).bind fun c₁ => (c₁.unlinkHead r.2).map fun c₂ => (c₂, some r.2)

/-! ### `cancel` -/

/-- `cancel(e)`.  The links of an event that is not in the queue are `NULL`, and the
first assertion dereferences them. -/
def cancel (c : CalendarScheduler) (e : Event) : Option (CalendarScheduler × Event) :=
  if e.uid_ ≤ 0 then some (c, e)
  else
    let i := c.calendarHash e.time_
    let before := (c.buckets_ i).list_.takeWhile (fun x => x ≠ e)
    match (c.buckets_ i).list_.dropWhile (fun x => x ≠ e) with
    | [] => none
    | _ :: after =>
      -- `next_` and `prev_` on the circular list
      let next := (after ++ before).head?
      let prev := (after ++ before).getLast?
      let unique := uniqueTiming e (next.toList ++ prev.toList)
      let c' := c.unlink i (before ++ after) unique
      if unique = true ∧ (c'.stat_qsize_ < 0 ∨ (c'.buckets_ i).count_ < 0) ∨
          (c'.buckets_ i).count_ = 0 ∧ before ++ after ≠ [] then none
      else some (c', { e with uid_ := -e.uid_ })

end CalendarScheduler

end Ns2.Common
