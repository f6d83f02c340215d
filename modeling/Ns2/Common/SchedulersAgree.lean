import Ns2.Common.SimulatorRefines
import Ns2.Common.HeapRefines
import Ns2.Common.SplayScheduler

/-!
# The simulation does not depend on the scheduler

* `CalendarScheduler.serve` — one request to the calendar queue.
* `serves_calendar`, `serves_splay`, `serves_heap` — each scheduler does what the list scheduler
  does; the heap as long as the stamps do not wrap around.
* `schedulers_agree` — the simulations with the calendar queue, the splay tree and the heap are
  that with the list.
-/

namespace Ns2.Common

open Simulation Agenda BinHeap

/-- One request to the calendar queue. -/
def CalendarScheduler.serve (s : Numbered CalendarScheduler) :
    Request → Option (Numbered CalendarScheduler × Option Event)
  | .schedule time_ => (s.queue.insert ⟨s.uid_, time_⟩).map fun c => (⟨s.uid_ + 1, c⟩, none)
  | .deque => s.queue.deque.map fun r => (⟨s.uid_, r.1⟩, r.2)
  | .cancel e => (s.queue.cancel e).map fun r => (⟨s.uid_, r.1⟩, some r.2)

/-- The calendar queue has the events of the list, and gives the same numbers. -/
def CalendarServes (s : Numbered CalendarScheduler) (t : Numbered (List Event)) : Prop :=
  s.uid_ = t.uid_ ∧ Refines s.queue t.queue

/-- A result of the calendar queue, with the counter. -/
theorem calendar_rel {x : Option (CalendarScheduler × Option Event)}
    {y : Option (List Event × Option Event)} (h : Agree Refines x y) (u : ℤ) :
    Agree CalendarServes (x.map fun r => ((⟨u, r.1⟩ : Numbered CalendarScheduler), r.2))
      (y.map fun r => ((⟨u, r.1⟩ : Numbered (List Event)), r.2)) :=
  rel_map h fun _ _ hab => ⟨⟨rfl, hab.1⟩, hab.2⟩

theorem serves_calendar : Serves CalendarScheduler.serve CalendarServes fun _ => True := by
  refine ⟨fun _ _ h => h.1, fun s t q h hq => ?_⟩
  obtain ⟨u, c⟩ := s
  obtain ⟨u', l⟩ := t
  obtain ⟨huid, href⟩ := h
  simp only at huid href
  subst huid
  cases q with
  | schedule time_ =>
    have hrel := calendar_rel (href.step (.insert ⟨u, time_⟩ hq.1)) (u + 1)
    simp only [CalendarScheduler.step, Option.map_map, Function.comp_def] at hrel
    exact hrel
  | deque => exact calendar_rel (href.step .deque) u
  | cancel e =>
    have hrel := calendar_rel (href.step (.cancel e hq.2)) u
    simp only [CalendarScheduler.step, ListScheduler.step, Option.map_map, Function.comp_def] at hrel
    simp only [CalendarScheduler.serve, ListScheduler.serve]
    exact hrel

theorem serves_splay : Serves SplayScheduler.serve SplayRefines fun _ => True :=
  ⟨fun _ _ h => h.uid_, fun _ _ q h _ => h.serve q⟩

/-! ## The heap -/

/-- The heap has the events of the list, and its stamps have not wrapped around. -/
structure HeapFits (s : Numbered Heap) (t : Numbered (List Event)) : Prop where
  /-- The events. -/
  refines : HeapRefines s t
  /-- The next stamp is the largest. -/
  below : s.queue.Below
  /-- There is a stamp for each number. -/
  stamp_lt : (s.queue.h_s_key : ℤ) < s.uid_
  /-- The numbers fit. -/
  uid_lt : s.uid_ < 2 ^ 32

theorem heapExtractMin_key (c : Heap) : c.heapExtractMin.1.h_s_key = c.h_s_key := by
  rw [Heap.heapExtractMin]
  split
  · rfl
  · rfl

theorem heapDelete_key (c : Heap) (e : Event) : (c.heapDelete e).h_s_key = c.h_s_key := by
  rw [Heap.heapDelete]
  split
  · rfl
  · exact heapExtractMin_key _

/-- The stamps after a request that the counter has room for. -/
theorem HeapFits.stamps {s : Numbered Heap} {t : Numbered (List Event)} (h : HeapFits s t)
    {q : Request} (hq : Ready (fun u => u + 1 < 2 ^ 32) t q) :
    ((HeapScheduler.serve s q).1.queue.h_s_key : ℤ) < (HeapScheduler.serve s q).1.uid_ ∧
      (HeapScheduler.serve s q).1.uid_ < 2 ^ 32 := by
  have hstamp := h.stamp_lt
  have huid := h.uid_lt
  cases q with
  | schedule time_ =>
    have hroom : s.uid_ + 1 < 2 ^ 32 := by
      rw [h.refines.uid_]
      exact hq.2
    have hnext : ((HeapScheduler.serve s (.schedule time_)).1.queue.h_s_key : ℤ) =
        ((s.queue.h_s_key + 1) % 2 ^ 32 : ℕ) := rfl
    rw [hnext, Nat.mod_eq_of_lt (by omega)]
    simp only [HeapScheduler.serve]
    omega
  | deque =>
    simp only [HeapScheduler.serve, HeapScheduler.deque, heapExtractMin_key]
    exact ⟨hstamp, huid⟩
  | cancel e =>
    refine ⟨?_, huid⟩
    simp only [HeapScheduler.serve, HeapScheduler.cancel]
    split
    · exact hstamp
    · rw [heapDelete_key]
      exact hstamp

theorem serves_heap :
    Serves (fun s q => some (HeapScheduler.serve s q)) HeapFits fun u => u + 1 < 2 ^ 32 := by
  refine ⟨fun _ _ h => h.refines.uid_, fun s t q h hq => ?_⟩
  have hfits : StampFits s q := by
    cases q with
    | schedule time_ => exact fun i hi _ => h.below _ (mem_contents.mpr ⟨i, hi, rfl⟩)
    | deque => trivial
    | cancel e => trivial
  have hlist : ListScheduler.serve t q = some (orderedServe t q) := by
    cases q with
    | schedule time_ => rfl
    | deque => rfl
    | cancel e =>
      rw [ListScheduler.serve, ListScheduler.cancel, orderedServe]
      split
      · rfl
      · rw [if_pos hq.1]
        rfl
  obtain ⟨h1, h2⟩ := h.refines.serve q hfits
  obtain ⟨h3, h4⟩ := h.stamps hq
  have hstamp := h.stamp_lt
  have huid := h.uid_lt
  rw [hlist]
  exact Option.Rel.some ⟨⟨h1, (h.below.serve h.refines.holds.ordered (by omega) q).1, h3, h4⟩, h2⟩

/-! ## All schedulers -/

section

variable {ι γ : Type*} [DecidableEq ι]

omit [DecidableEq ι] in
/-- What is seen of a run: the state but for the queue, and what the steps have done. -/
def Simulator.seen (r : Simulator ι γ × List (Notice ι)) : Simulator ι Unit × List (Notice ι) :=
  (r.1.view, r.2)

/-- The simulation with another scheduler. -/
theorem Serves.run_eq {R : Numbered γ → Numbered (List Event) → Prop} {room : ℤ → Prop}
    {serve : Simulator.Serve γ} (hS : Serves serve R room) {queue : γ} (hnew : R ⟨1, queue⟩ ⟨1, []⟩)
    (inputs : List (Input ι)) (hx : ∀ x ∈ inputs, x.NonNeg)
    (hroom : ∀ u : ℤ, u < 1 + inputs.length → room u) :
    (run (Simulator.step serve) (Simulator.new queue) inputs).map Simulator.seen =
      (run (Simulator.step ListScheduler.serve) (Simulator.new []) inputs).map Simulator.seen := by
  have hsame : Same R (Simulator.new queue : Simulator ι γ) (Simulator.new []) := ⟨hnew, rfl⟩
  refine map_eq_of_rel (hsame.run hS inputs sound_new hx hroom) ?_
  rintro ⟨s, notices⟩ ⟨t, notices'⟩ ⟨hst, hn⟩
  simp only at hst hn
  simp only [Simulator.seen, hst.view, hn]

/-- **The simulation does not depend on the scheduler.**  With the calendar queue and the splay
tree, and with the heap in runs of fewer than `2 ^ 32 - 1` steps, the same handlers are called at
the same times in the same order as with the list, and the timers, the clock and the numbers of
the events are the same after every run; and one simulation aborts when the other one does. -/
theorem schedulers_agree (raw : CalendarScheduler) (hsqrt : ∀ x, 0 < x → 0 < raw.sqrt x)
    (h_elems : ℕ → HeapElem) (inputs : List (Input ι)) (hx : ∀ x ∈ inputs, x.NonNeg) :
    (run (Simulator.step CalendarScheduler.serve) (Simulator.new (CalendarScheduler.new raw)) inputs).map
        Simulator.seen =
      (run (Simulator.step ListScheduler.serve) (Simulator.new []) inputs).map Simulator.seen ∧
    (run (Simulator.step SplayScheduler.serve) (Simulator.new SplayScheduler.new) inputs).map
        Simulator.seen =
      (run (Simulator.step ListScheduler.serve) (Simulator.new []) inputs).map Simulator.seen ∧
    (inputs.length + 1 < 2 ^ 32 →
      (run (Simulator.step fun s q => some (HeapScheduler.serve s q))
          (Simulator.new (Heap.new h_elems)) inputs).map Simulator.seen =
        (run (Simulator.step ListScheduler.serve) (Simulator.new []) inputs).map Simulator.seen) := by
  refine ⟨?_, ?_, fun hlen => ?_⟩
  · exact serves_calendar.run_eq ⟨rfl, refines_new hsqrt⟩ inputs hx fun _ _ => trivial
  · exact serves_splay.run_eq splayRefines_new inputs hx fun _ _ => trivial
  · have hnew : HeapFits ⟨1, Heap.new h_elems⟩ ⟨1, []⟩ := by
      refine ⟨heapRefines_new h_elems, fun x hx => absurd hx (Multiset.notMem_zero x), ?_, ?_⟩
      · simp [Heap.new]
      · norm_num
    exact serves_heap.run_eq hnew inputs hx fun u hu => by omega

end

/-- The two timers, with all schedulers. -/
theorem schedulers_agree_twoTimers :
    (run (Simulator.step CalendarScheduler.serve) (Simulator.new (CalendarScheduler.new unset))
      twoTimers).map (fun r => (Simulator.seen r).2) =
    some (bothSet ++ [.scheduled (.timer false) 5, .quiet, .dispatched (.timer true) 5,
        .cancelled true, .quiet]) := by
  have hagree := (schedulers_agree unset sqrtDown_pos (fun _ => ⟨0, 0, ⟨0, 0⟩⟩) twoTimers
    nonNeg_twoTimers).1
  have hsecond := congrArg (Option.map Prod.snd) hagree
  simp only [Option.map_map] at hsecond
  exact hsecond.trans notices_twoTimers

end Ns2.Common
