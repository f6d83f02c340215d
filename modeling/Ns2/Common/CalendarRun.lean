import Ns2.Common.CalendarRefines
import Ns2.Lib.Run

/-!
# The bookkeeping of the calendar queue

The counters of the calendar queue steer when it resizes, and how many samples the new width is
taken from.  They are right at every moment of every run.

* `pendingAfter`, `track` — the run, with the multiset of the events that are pending.
* `CalendarScheduler.Exact` — the counters, the buckets and the next width are as they should be.
* `Tracks` — the invariant: the calendar holds a sorted list of the pending events.
* `calendar_bookkeeping` — every run.
-/

namespace Ns2.Common

open Stable

/-! ## The pending events -/

/-- The events pending after an operation, which may have taken `out` out of the queue. -/
def pendingAfter (P : Multiset Event) : Op → Option Event → Multiset Event
  | .insert e _, _ => e ::ₘ P
  | .deque, out => out.elim P P.erase
  | .cancel e _, _ => if e.uid_ ≤ 0 then P else P.erase e

/-- A step of a calendar queue and of the multiset of the events pending in it; there is no state
after a failed `assert`. -/
def track (s : Option (CalendarScheduler × Multiset Event)) (o : Op) :
    Option (CalendarScheduler × Multiset Event) :=
  s.bind fun cP => (cP.1.step o).map fun r => (r.1, pendingAfter cP.2 o r.2)

/-- "It is an error to call this routine when the event is not actually in the queue." -/
def Legal (s : Option (CalendarScheduler × Multiset Event)) : Op → Prop
  | .cancel e _ => e.uid_ ≤ 0 ∨ ∀ cP ∈ s, e ∈ cP.2
  | _ => True

namespace CalendarScheduler

variable {c : CalendarScheduler} {l : List Event} {i : ℕ}

/-- The calendar queue counts the events `P`, and has each in its bucket. -/
structure Exact (c : CalendarScheduler) (P : Multiset Event) : Prop where
  /-- `stat_qsize_` is the number of distinct times. -/
  stat : c.stat_qsize_ = ((P.map Event.time_).toFinset.card : ℤ)
  /-- `qsize_` is the number of events. -/
  size : c.qsize_ = Multiset.card P
  /-- The bucket of an event exists. -/
  home : ∀ e ∈ P, c.calendarHash e.time_ < c.nbuckets_
  /-- A bucket has the events whose times map to it. -/
  bucket : ∀ i < c.nbuckets_,
    ((c.buckets_ i).list_ : Multiset Event) = P.filter fun e => c.calendarHash e.time_ = i
  /-- The next width is positive. -/
  width : ∀ newsize, 0 < newsize → ∃ c' w, c.newwidth newsize = some (c', w) ∧ 0 < w

/-- A bucket has the events of the list whose times map to it, in the order of their classes. -/
theorem Holds.cls_bucket (h : c.Holds l) (hi : i < c.nbuckets_) (t : ℚ) :
    cls Event.time_ t (c.buckets_ i).list_
      = cls Event.time_ t (l.filter fun e => c.calendarHash e.time_ = i) := by
  by_cases ht : 0 ≤ t ∧ c.calendarHash t = i
  · obtain ⟨ht0, rfl⟩ := ht
    rw [h.classes t ht0, cls, cls, List.filter_filter]
    refine List.filter_congr fun e _ => ?_
    by_cases he : e.time_ = t
    · simp [he]
    · simp [he]
  · rw [cls_eq_nil, cls_eq_nil]
    · rintro e he rfl
      obtain ⟨hel, heq⟩ := List.mem_filter.mp he
      exact ht ⟨h.nonneg e hel, of_decide_eq_true heq⟩
    · rintro e he rfl
      exact ht (h.home i hi e he)

/-- A calendar that holds a list counts its events. -/
theorem Searchable.exact (h : c.Searchable l) : c.Exact (l : Multiset Event) where
  stat := h.holds.stat
  size := h.holds.size
  home e he := h.holds.hash_lt (h.holds.nonneg e he)
  bucket i hi := by
    rw [Multiset.filter_coe, Multiset.coe_eq_coe]
    exact perm_of_cls (h.holds.cls_bucket hi)
  width newsize hpos := by
    obtain ⟨c', w, h1, h2, -⟩ := newwidth_spec h.holds h.ready hpos
    exact ⟨c', w, h1, h2⟩

end CalendarScheduler

/-! ## Runs -/

/-- No `assert` has failed, and the calendar holds a sorted list of the pending events. -/
def Tracks (s : Option (CalendarScheduler × Multiset Event)) : Prop :=
  ∃ (c : CalendarScheduler) (l : List Event), s = some (c, (l : Multiset Event)) ∧ Refines c l

/-- A sorted insertion adds the event. -/
theorem ListScheduler.coe_insert {l : List Event} (h : IsSorted Event.time_ l) (e : Event) :
    (ListScheduler.insert l e : Multiset Event) = e ::ₘ l := by
  rw [Multiset.cons_coe, Multiset.coe_eq_coe]
  refine (perm_of_cls (ListScheduler.insert_spec h).2).trans ?_
  exact List.perm_append_singleton e l

/-- The pending events change as the list does. -/
theorem pendingAfter_step {l l' : List Event} {o : Op} {out : Option Event}
    (h : IsSorted Event.time_ l) (hstep : ListScheduler.step l o = some (l', out)) :
    pendingAfter l o out = l' := by
  cases o with
  | insert e he =>
    obtain ⟨rfl, -⟩ := Prod.mk.inj (Option.some.inj hstep)
    exact (ListScheduler.coe_insert h e).symm
  | deque =>
    cases l with
    | nil =>
      obtain ⟨rfl, rfl⟩ := Prod.mk.inj (Option.some.inj hstep)
      rfl
    | cons e l =>
      obtain ⟨rfl, rfl⟩ := Prod.mk.inj (Option.some.inj hstep)
      exact congrArg _ (List.erase_cons_head ..)
  | cancel e he =>
    rw [ListScheduler.step, ListScheduler.cancel] at hstep
    rw [pendingAfter]
    split_ifs at hstep ⊢ with hu hmem
    · obtain ⟨rfl, -⟩ := Prod.mk.inj (Option.some.inj hstep)
      rfl
    · obtain ⟨rfl, -⟩ := Prod.mk.inj (Option.some.inj hstep)
      rfl
    · cases hstep

/-- The list scheduler carries out every legal operation. -/
theorem ListScheduler.step_isSome {c : CalendarScheduler} {l : List Event} {o : Op}
    (h : Legal (some (c, (l : Multiset Event))) o) : ∃ r, ListScheduler.step l o = some r := by
  cases o with
  | insert e he => exact ⟨_, rfl⟩
  | deque => exact ⟨_, rfl⟩
  | cancel e he =>
    rw [ListScheduler.step, ListScheduler.cancel]
    by_cases hu : e.uid_ ≤ 0
    · rw [if_pos hu]
      exact ⟨_, rfl⟩
    · have hmem : e ∈ l := h.resolve_left hu _ rfl
      rw [if_neg hu, if_pos hmem]
      exact ⟨_, rfl⟩

/-- A legal operation keeps the invariant. -/
theorem Tracks.step {s : Option (CalendarScheduler × Multiset Event)} {o : Op} (h : Tracks s)
    (hlegal : Legal s o) : Tracks (track s o) := by
  obtain ⟨c, l, rfl, hr⟩ := h
  obtain ⟨⟨l', out⟩, hl⟩ := ListScheduler.step_isSome hlegal
  have hagree := hr.step o
  rw [hl] at hagree
  cases hc : c.step o with
  | none =>
    rw [hc] at hagree
    cases hagree
  | some r =>
    rw [hc] at hagree
    obtain ⟨c', out'⟩ := r
    cases hagree with
    | some hrel =>
      obtain ⟨h1, h2⟩ := hrel
      simp only at h1 h2
      subst h2
      refine ⟨c', l', ?_, h1⟩
      rw [track, Option.bind_some, hc, Option.map_some, pendingAfter_step hr.sorted hl]

/-- **The bookkeeping holds.**  Whatever events are inserted, dequeued and cancelled, and however
often the calendar queue is resized, no `assert` fails: `stat_qsize_` is the number of distinct
pending times, `qsize_` is the number of pending events, each of them is in the bucket its time
maps to, and the next width is positive. -/
theorem calendar_bookkeeping (raw : CalendarScheduler) (hsqrt : ∀ x, 0 < x → 0 < raw.sqrt x)
    (ops : List Op)
    (hlegal : Run.AllSteps track Legal (some (CalendarScheduler.new raw, 0)) ops) :
    ∃ c P, ops.foldl track (some (CalendarScheduler.new raw, 0)) = some (c, P) ∧ c.Exact P := by
  have hinv : Tracks (ops.foldl track (some (CalendarScheduler.new raw, 0))) :=
    Run.foldl_invariant (I := fun _ s => Tracks s) (fun _ s o h ho => h.step ho) ops [] _
      ⟨_, [], rfl, refines_new hsqrt⟩ hlegal
  obtain ⟨c, l, heq, hr⟩ := hinv
  exact ⟨c, _, heq, hr.searchable.exact⟩

/-- An event that has just been inserted can be cancelled. -/
theorem legal_cancel (s : Option (CalendarScheduler × Multiset Event)) (e : Event)
    (he : 0 ≤ e.time_) : Legal (track s (.insert e he)) (.cancel e he) := by
  refine Or.inr fun cP hcP => ?_
  obtain ⟨cP', -, hmap⟩ := Option.bind_eq_some_iff.mp hcP
  obtain ⟨r, -, rfl⟩ := Option.map_eq_some_iff.mp hmap
  exact Multiset.mem_cons_self e _

/-- Three events are inserted, the last of which is cancelled. -/
def cancelledCalls : List Op :=
  [.insert ⟨1, 5⟩ (by decide), .insert ⟨2, 9⟩ (by decide), .insert ⟨3, 5⟩ (by decide),
    .cancel ⟨3, 5⟩ (by decide), .deque]

theorem calendar_bookkeeping_cancel :
    ∃ c P, cancelledCalls.foldl track (some (CalendarScheduler.new unset, 0)) = some (c, P) ∧
      c.Exact P :=
  calendar_bookkeeping unset sqrtDown_pos cancelledCalls
    ⟨trivial, trivial, trivial, legal_cancel _ _ _, trivial, trivial⟩

end Ns2.Common
