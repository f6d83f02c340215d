import Ns2.Common.CalendarRefines

/-!
# Requests to a scheduler

`Scheduler::schedule` gives each event the next `uid_`, so that among events of one time
the `uid_` tells the order of insertion.

* `Precedes` — the order by time and insertion.
* `Request` — what is done to a scheduler.
* `ListScheduler.serve` — one request to the list scheduler.
* `orderedServe` — the same without the `abort()` of `cancel`.
* `InOrder` — its queue is in that order, and stays in it.
-/

namespace Ns2.Common

open Stable

/-- `a` comes before `b`: by time, and by `uid_` among events of one time. -/
def Precedes (a b : Event) : Prop := a.time_ < b.time_ ∨ (a.time_ = b.time_ ∧ a.uid_ < b.uid_)

theorem Precedes.time_le {a b : Event} (h : Precedes a b) : a.time_ ≤ b.time_ := by
  rcases h with h | ⟨h, -⟩
  · exact h.le
  · exact h.le

theorem Precedes.asymm {a b : Event} (h : Precedes a b) : ¬ Precedes b a := by
  rcases h with h | ⟨h, h'⟩
  · rintro (k | ⟨k, -⟩)
    · exact absurd k h.asymm
    · exact absurd k h.ne'
  · rintro (k | ⟨-, k⟩)
    · exact absurd k (h ▸ lt_irrefl _)
    · exact absurd k h'.asymm

theorem Precedes.ne {a b : Event} (h : Precedes a b) : a ≠ b := by
  rintro rfl
  exact h.asymm h

/-! ## Requests -/

/-- What is done to a scheduler. -/
inductive Request where
  /-- `schedule` of an event that is ready at `time_`. -/
  | schedule (time_ : ℚ)
  /-- `deque()`. -/
  | deque
  /-- `cancel(e)`. -/
  | cancel (e : Event)

/-- A scheduler with the counter `uid_` of `Scheduler::schedule`. -/
structure Numbered (γ : Type*) where
  /-- The ID of the next event. -/
  uid_ : ℤ
  /-- The queue. -/
  queue : γ

/-- One request to the list scheduler; the output is the event that has left. -/
def ListScheduler.serve (s : Numbered (List Event)) :
    Request → Option (Numbered (List Event) × Option Event)
  | .schedule time_ => some (⟨s.uid_ + 1, ListScheduler.insert s.queue ⟨s.uid_, time_⟩⟩, none)
  | .deque => some (⟨s.uid_, (ListScheduler.deque s.queue).1⟩, (ListScheduler.deque s.queue).2)
  | .cancel e => (ListScheduler.cancel s.queue e).map fun r => (⟨s.uid_, r.1⟩, some r.2)

/-- One request to a queue in the order of time and insertion.  `cancel` passes over an event
that is not in the queue. -/
def orderedServe (s : Numbered (List Event)) : Request → Numbered (List Event) × Option Event
  | .schedule time_ => (⟨s.uid_ + 1, ListScheduler.insert s.queue ⟨s.uid_, time_⟩⟩, none)
  | .deque => (⟨s.uid_, (ListScheduler.deque s.queue).1⟩, (ListScheduler.deque s.queue).2)
  | .cancel e =>
    if e.uid_ ≤ 0 then (s, some e)
    else (⟨s.uid_, s.queue.erase e⟩, some { e with uid_ := -e.uid_ })

/-- It does what the list scheduler does, unless that aborts. -/
theorem ListScheduler.serve_eq {s : Numbered (List Event)} {q : Request}
    {r : Numbered (List Event) × Option Event} (h : ListScheduler.serve s q = some r) :
    orderedServe s q = r := by
  cases q with
  | schedule time_ => exact Option.some.inj h
  | deque => exact Option.some.inj h
  | cancel e =>
    simp only [ListScheduler.serve, ListScheduler.cancel, Option.map_eq_some_iff] at h
    obtain ⟨x, hx, rfl⟩ := h
    rw [orderedServe]
    split at hx
    · rename_i hu
      obtain rfl := Option.some.inj hx
      rw [if_pos hu]
    rename_i hu
    split at hx
    · obtain rfl := Option.some.inj hx
      rw [if_neg hu]
    · cases hx

/-- The queue of the list scheduler is in the order of time and insertion. -/
structure InOrder (s : Numbered (List Event)) : Prop where
  /-- The order; the `uid_` tells the order of insertion. -/
  ordered : s.queue.Pairwise Precedes
  /-- The next event has a larger number than those in the queue. -/
  fresh : ∀ e ∈ s.queue, e.uid_ < s.uid_

variable {s : Numbered (List Event)}

theorem InOrder.sorted (h : InOrder s) : IsSorted Event.time_ s.queue :=
  h.ordered.imp fun hxy => hxy.time_le

/-- An event with a new number goes behind the events of its time. -/
theorem InOrder.insert (h : InOrder s) (time_ : ℚ) :
    InOrder ⟨s.uid_ + 1, ListScheduler.insert s.queue ⟨s.uid_, time_⟩⟩ := by
  obtain ⟨A, B, hl, hins, hbefore, hafter⟩ := ListScheduler.insert_split h.sorted ⟨s.uid_, time_⟩
  have hmem : ∀ x, x ∈ A ++ ⟨s.uid_, time_⟩ :: B ↔ x = ⟨s.uid_, time_⟩ ∨ x ∈ s.queue := by
    intro x
    rw [hl, List.mem_append, List.mem_cons, List.mem_append]
    tauto
  refine ⟨?_, fun x hx => ?_⟩
  · have hord := h.ordered
    rw [hl] at hord
    obtain ⟨hA, hB, hAB⟩ := List.pairwise_append.mp hord
    rw [hins]
    refine List.pairwise_append.mpr ⟨hA, List.pairwise_cons.mpr ⟨fun b hb => .inl (hafter b hb), hB⟩, ?_⟩
    intro a ha b hb
    rcases List.mem_cons.mp hb with rfl | hb
    · have hlt := h.fresh a (by rw [hl]; exact List.mem_append_left B ha)
      rcases (hbefore a ha).lt_or_eq with h1 | h1
      · exact .inl h1
      · exact .inr ⟨h1, hlt⟩
    · exact hAB a ha b hb
  · rw [hins] at hx
    rcases (hmem x).mp hx with rfl | hx
    · exact lt_add_one s.uid_
    · exact (h.fresh x hx).trans (lt_add_one s.uid_)

/-- Events that leave do not change the order of the others. -/
theorem InOrder.sublist (h : InOrder s) {l : List Event}
    (hl : l.Sublist s.queue) : InOrder ⟨s.uid_, l⟩ :=
  ⟨h.ordered.sublist hl, fun e he => h.fresh e (hl.subset he)⟩

end Ns2.Common
