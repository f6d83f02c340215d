import Ns2.Common.TimerRun

/-!
# One simulation with two schedulers

A scheduler that does for every request what the list scheduler does runs the same simulation:
the same handlers are called, at the same times and in the same order.

* `Simulator.view` — the state but for the queue.
* `Serves` — the scheduler does what the list scheduler does.
* `Same.step`, `Same.run` — one step and a whole run, with either scheduler.
-/

namespace Ns2.Common

open Simulation Agenda

variable {ι γ : Type*} [DecidableEq ι]

omit [DecidableEq ι] in
/-- The state but for the queue. -/
def Simulator.view (s : Simulator ι γ) : Simulator ι Unit :=
  { s with sched := ⟨s.sched.uid_, ()⟩ }

/-- The requests that a simulation makes of the list scheduler. -/
def Ready (room : ℤ → Prop) (t : Numbered (List Event)) : Request → Prop
  | .schedule time_ => 0 ≤ time_ ∧ room t.uid_
  | .deque => True
  | .cancel e => e ∈ t.queue ∧ 0 ≤ e.time_

/-- A scheduler does for these requests what the list scheduler does. -/
structure Serves (serve : Simulator.Serve γ) (R : Numbered γ → Numbered (List Event) → Prop)
    (room : ℤ → Prop) : Prop where
  /-- The next event gets the same number. -/
  uid_ : ∀ s t, R s t → s.uid_ = t.uid_
  /-- Each request. -/
  serve : ∀ s t q, R s t → Ready room t q → Agree R (serve s q) (ListScheduler.serve t q)

omit [DecidableEq ι] in
/-- Two simulators are in the same state, but for the queue. -/
structure Same (R : Numbered γ → Numbered (List Event) → Prop) (s : Simulator ι γ)
    (t : Simulator ι (List Event)) : Prop where
  /-- The queues. -/
  sched : R s.sched t.sched
  /-- The rest. -/
  view : s.view = t.view

variable {R : Numbered γ → Numbered (List Event) → Prop} {room : ℤ → Prop}
  {serve : Simulator.Serve γ} {s : Simulator ι γ} {t : Simulator ι (List Event)} {i : ι}

namespace Same

omit [DecidableEq ι] in
theorem fields (h : Same R s t) : s.clock_ = t.clock_ ∧ s.halted_ = t.halted_ ∧
    s.sched.uid_ = t.sched.uid_ ∧ s.handler_ = t.handler_ ∧ s.event_ = t.event_ ∧
    s.status_ = t.status_ ∧ s.control = t.control := by
  have hview := h.view
  simp only [Simulator.view, Simulator.mk.injEq, Numbered.mk.injEq, and_true] at hview
  exact hview

omit [DecidableEq ι] in
theorem schedule (hS : Serves serve R room) (h : Same R s t) (hd : Handler ι) (e : Event) {delay : ℚ}
    (hready : Ready room t.sched (.schedule (t.clock_ + delay))) :
    Agree (Same R) (s.schedule serve hd e delay) (t.schedule ListScheduler.serve hd e delay) := by
  obtain ⟨hclock, hhalt, huid, hhandler, hevent, hstatus, hcontrol⟩ := h.fields
  rw [Simulator.schedule, Simulator.schedule, huid, hclock]
  split
  · exact Option.Rel.none
  split
  · exact Option.Rel.none
  · refine rel_map (hS.serve _ _ _ h.sched hready) ?_
    rintro ⟨x, out⟩ ⟨y, out'⟩ ⟨hxy, -⟩
    refine ⟨⟨hxy, ?_⟩, rfl⟩
    simp only [Simulator.view, hS.uid_ x y hxy, hhalt, hhandler, hevent, hstatus, hcontrol]

theorem schedEvent (hS : Serves serve R room) (h : Same R s t) {delay : ℚ}
    (hready : Ready room t.sched (.schedule (t.clock_ + delay))) :
    Option.Rel (Same R) (s.schedEvent serve i delay) (t.schedEvent ListScheduler.serve i delay) := by
  rw [Simulator.schedEvent, Simulator.schedEvent, h.fields.2.2.2.2.1]
  refine rel_map (h.schedule hS (.timer i) (t.event_ i) hready) ?_
  rintro ⟨x, e⟩ ⟨y, e'⟩ ⟨hxy, he⟩
  simp only at hxy he
  have hview := hxy.fields
  refine ⟨hxy.sched, ?_⟩
  simp only [Simulator.view, hview, he]

theorem cancelEvent (hS : Serves serve R room) (h : Same R s t)
    (hready : Ready room t.sched (.cancel (t.event_ i))) :
    Option.Rel (Same R) (s.cancelEvent serve i) (t.cancelEvent ListScheduler.serve i) := by
  have hview := h.fields
  rw [Simulator.cancelEvent, Simulator.cancelEvent, hview.2.2.2.2.1]
  refine rel_map (hS.serve _ _ _ h.sched hready) ?_
  rintro ⟨x, out⟩ ⟨y, out'⟩ ⟨hxy, hout⟩
  simp only at hout
  subst hout
  refine ⟨hxy, ?_⟩
  simp only [Simulator.view, hS.uid_ x y hxy, hview]

theorem setStatus (h : Same R s t) (status : TimerStatus) :
    Same R (s.setStatus i status) (t.setStatus i status) := by
  have hview := h.fields
  refine ⟨h.sched, ?_⟩
  simp only [Simulator.view, Simulator.setStatus, hview]

/-- A timer is set by `_sched` and an assignment to its status. -/
theorem schedPending (hS : Serves serve R room) (h : Same R s t) {delay : ℚ}
    (hready : Ready room t.sched (.schedule (t.clock_ + delay))) :
    Option.Rel (Same R) ((s.schedEvent serve i delay).map (·.setStatus i .pending))
      ((t.schedEvent ListScheduler.serve i delay).map (·.setStatus i .pending)) :=
  rel_map (h.schedEvent hS hready) fun _ _ hxy => hxy.setStatus .pending

theorem cancelIdle (hS : Serves serve R room) (h : Same R s t)
    (hready : Ready room t.sched (.cancel (t.event_ i))) :
    Option.Rel (Same R) ((s.cancelEvent serve i).map (·.setStatus i .idle))
      ((t.cancelEvent ListScheduler.serve i).map (·.setStatus i .idle)) :=
  rel_map (h.cancelEvent hS hready) fun _ _ hxy => hxy.setStatus .idle

theorem reschedTimer (hS : Serves serve R room) (h : Same R s t) {delay : ℚ}
    (hcancel : t.status_ i = .pending → Ready room t.sched (.cancel (t.event_ i)))
    (htime : 0 ≤ t.clock_ + delay) (hroom : room t.sched.uid_) :
    Option.Rel (Same R) (s.reschedTimer serve i delay) (t.reschedTimer ListScheduler.serve i delay) := by
  rw [Simulator.reschedTimer, Simulator.reschedTimer, h.fields.2.2.2.2.2.1]
  split
  · rename_i hi
    -- the first request leaves the clock and the counter as they are
    have hkeep : ∀ y, t.cancelEvent ListScheduler.serve i = some y →
        y.clock_ = t.clock_ ∧ y.sched.uid_ = t.sched.uid_ := by
      intro y hy
      simp only [Simulator.cancelEvent, ListScheduler.serve, Option.map_map] at hy
      obtain ⟨r, -, rfl⟩ := Option.map_eq_some_iff.mp hy
      exact ⟨rfl, rfl⟩
    refine rel_bind (rel_and (h.cancelEvent hS (hcancel hi)) hkeep) ?_
    rintro x y ⟨hxy, h1, h2⟩
    refine hxy.schedPending hS ⟨?_, ?_⟩
    · rw [h1]
      exact htime
    · rw [h2]
      exact hroom
  · exact h.schedPending hS ⟨htime, hroom⟩

omit [DecidableEq ι] in
theorem scheduleAt (hS : Serves serve R room) (h : Same R s t) {delay : ℚ}
    (hready : Ready room t.sched (.schedule (t.clock_ + delay))) :
    Agree (Same R) (s.scheduleAt serve delay) (t.scheduleAt ListScheduler.serve delay) :=
  (h.schedule hS .atHandler ⟨0, 0⟩ hready).map fun e : Event =>
    Notice.scheduled (Job.atEvent e.uid_) e.time_

omit [DecidableEq ι] in
theorem atCommand (hS : Serves serve R room) (h : Same R s t) (u : ℚ) (hclock : 0 ≤ t.clock_)
    (hroom : room t.sched.uid_) :
    Agree (Same R) (s.atCommand serve u) (t.atCommand ListScheduler.serve u) := by
  rw [Simulator.atCommand, Simulator.atCommand, h.fields.1]
  by_cases hd : (if u < 0 then -u else u - t.clock_) < 0
  · rw [if_pos hd, if_pos hd]
    exact Option.Rel.some ⟨h, rfl⟩
  · rw [if_neg hd, if_neg hd]
    exact h.scheduleAt hS ⟨add_nonneg hclock (not_lt.mp hd), hroom⟩

theorem enter (h : Same R s t) (e : Event) (hd : Handler ι) :
    Option.Rel (Same R) (s.enter e hd) (t.enter e hd) := by
  have hview := h.fields
  cases hd with
  | timer i =>
    simp only [Simulator.enter, Simulator.handle, hview]
    split
    · exact Option.Rel.none
    · refine Option.Rel.some ⟨h.sched, ?_⟩
      simp only [Simulator.view, Simulator.setStatus, hview]
  | atHandler =>
    refine Option.Rel.some ⟨h.sched, ?_⟩
    simp only [Simulator.view, hview]

theorem dispatch (h : Same R s t) (e : Event) : Agree (Same R) (s.dispatch e) (t.dispatch e) := by
  have hview := h.fields
  rw [Simulator.dispatch, Simulator.dispatch, hview.1, congrFun hview.2.2.2.1 e.uid_]
  split
  · exact Option.Rel.none
  cases t.handler_ e.uid_ with
  | none => exact Option.Rel.none
  | some hd =>
    simp only [Option.bind_some]
    have hset : Same R { s with clock_ := e.time_ } { t with clock_ := e.time_ } := by
      refine ⟨h.sched, ?_⟩
      simp only [Simulator.view, hview]
    exact rel_map (P := Same R) (hset.enter e hd) fun _ _ hxy => ⟨hxy, rfl⟩

omit [DecidableEq ι] in
theorem setControl (h : Same R s t) (c : Control ι) :
    Same R { s with control := c } { t with control := c } := by
  have hview := h.fields
  refine ⟨h.sched, ?_⟩
  simp only [Simulator.view, hview]

theorem iterate (hS : Serves serve R room) (h : Same R s t) :
    Agree (Same R) (s.iterate serve) (t.iterate ListScheduler.serve) := by
  have hview := h.fields
  rw [Simulator.iterate, Simulator.iterate]
  by_cases hh : t.halted_ = true
  · rw [if_pos hh, if_pos (hview.2.1.trans hh)]
    exact Option.Rel.some ⟨h.setControl .main, rfl⟩
  · rw [if_neg hh, if_neg fun hs => hh (hview.2.1.symm.trans hs)]
    refine rel_bind (hS.serve _ _ _ h.sched trivial) ?_
    rintro ⟨x, out⟩ ⟨y, out'⟩ ⟨hxy, hout⟩
    simp only at hxy hout
    subst hout
    have hset : Same R { s with sched := x } { t with sched := y } := by
      refine ⟨hxy, ?_⟩
      simp only [Simulator.view, hS.uid_ x y hxy, hview]
    cases out with
    | none => exact Option.Rel.some ⟨hset.setControl .main, rfl⟩
    | some e => exact hset.dispatch e

theorem leave (h : Same R s t) (hd : Handler ι) : Same R (s.leave hd) (t.leave hd) := by
  cases hd with
  | timer i =>
    rw [Simulator.leave, Simulator.leave, Simulator.handled, Simulator.handled, h.fields.2.2.2.2.2.1]
    split
    · exact (h.setStatus .idle).setControl .loop
    · exact h.setControl .loop
  | atHandler => exact h.setControl .loop

omit [DecidableEq ι] in
/-- What the simulator asks of the queue of an agenda is possible. -/
theorem ready_cancel {a : Agenda (Job ι) ℚ} (ht : Sound t a) (hi : t.status_ i = .pending) :
    Ready room t.sched (.cancel (t.event_ i)) := by
  obtain ⟨⟨u, n⟩, hdue⟩ := Option.isSome_iff_exists.mp ((ht.pending i).mp hi)
  rw [ht.armed.event_ i u n hdue]
  refine ⟨((ht.armed.filed.due _ u n).mp hdue).1, ?_⟩
  exact ht.nonneg.trans (ht.armed.filed.clock.symm.trans_le (ht.timely.clock_le _ u n hdue))

theorem call (hS : Serves serve R room) (h : Same R s t) {a : Agenda (Job ι) ℚ} (ht : Sound t a)
    {c : Call ι} (hx : (Input.call c).NonNeg) (hroom : room t.sched.uid_) :
    Agree (Same R) (s.call serve c) (t.call ListScheduler.serve c) := by
  have hview := h.fields
  cases c with
  | sched i delay =>
    rw [Simulator.call, Simulator.call, Simulator.schedTimer, Simulator.schedTimer,
      hview.2.2.2.2.2.1, hview.1]
    split
    · exact Option.Rel.none
    · exact rel_map (h.schedPending hS ⟨add_nonneg ht.nonneg hx, hroom⟩) fun _ _ hxy => ⟨hxy, rfl⟩
  | resched i delay =>
    rw [Simulator.call, Simulator.call, hview.1]
    exact rel_map (h.reschedTimer hS (ready_cancel ht) (add_nonneg ht.nonneg hx) hroom)
      fun _ _ hxy => ⟨hxy, rfl⟩
  | cancel i =>
    rw [Simulator.call, Simulator.call, Simulator.cancelTimer, Simulator.cancelTimer,
      hview.2.2.2.2.2.1]
    split
    · exact Option.Rel.none
    · rename_i hi
      exact rel_map (h.cancelIdle hS (ready_cancel ht (not_not.mp hi))) fun _ _ hxy => ⟨hxy, rfl⟩
  | forceCancel i =>
    rw [Simulator.call, Simulator.call, Simulator.forceCancel, Simulator.forceCancel,
      hview.2.2.2.2.2.1]
    split
    · rename_i hi
      exact rel_map (h.cancelIdle hS (ready_cancel ht hi)) fun _ _ hxy => ⟨hxy, rfl⟩
    · exact Option.Rel.some ⟨h, rfl⟩
  | atCommand u => exact h.atCommand hS u ht.nonneg hroom
  | atNow => exact h.scheduleAt hS ⟨add_nonneg ht.nonneg le_rfl, hroom⟩
  | halt =>
    refine Option.Rel.some ⟨⟨h.sched, ?_⟩, rfl⟩
    simp only [Simulator.view, hview]

/-- One step, with either scheduler. -/
theorem step (hS : Serves serve R room) (h : Same R s t) {a : Agenda (Job ι) ℚ} (ht : Sound t a)
    {x : Input ι} (hx : x.NonNeg) (hroom : room t.sched.uid_) :
    Agree (Same R) (s.step serve x) (t.step ListScheduler.serve x) := by
  have hview := h.fields
  have hquiet : Agree (Same R) (some (s, (Notice.quiet : Notice ι))) (some (t, Notice.quiet)) :=
    Option.Rel.some ⟨h, rfl⟩
  cases x with
  | call c =>
    rw [Simulator.step, Simulator.step, hview.2.2.2.2.2.2]
    split
    · exact hquiet
    · exact h.call hS ht hx hroom
  | run =>
    rw [Simulator.step, Simulator.step, hview.2.2.2.2.2.2]
    split
    · refine Option.Rel.some ⟨⟨h.sched, ?_⟩, rfl⟩
      simp only [Simulator.view, hview]
    · exact hquiet
  | resume =>
    rw [Simulator.step, Simulator.step, hview.2.2.2.2.2.2]
    split
    · refine Option.Rel.some ⟨⟨h.sched, ?_⟩, rfl⟩
      simp only [Simulator.view, hview]
    · exact hquiet
  | iterate =>
    rw [Simulator.step, Simulator.step, hview.2.2.2.2.2.2]
    split
    · exact h.iterate hS
    · exact hquiet
  | «return» =>
    rw [Simulator.step, Simulator.step, hview.2.2.2.2.2.2]
    cases t.control with
    | main => exact hquiet
    | loop => exact hquiet
    | handler hd => exact Option.Rel.some ⟨h.leave hd, rfl⟩

end Same

/-- An action makes one number at most. -/
theorem next_act_le (a : Agenda (Job ι) ℚ) (x : Option (Action (Job ι) ℚ)) :
    (x.toList.foldl act a).next ≤ a.next + 1 := by
  cases x with
  | none => exact (lt_add_one a.next).le
  | some x =>
    cases x with
    | set k t => exact le_rfl
    | clear k => exact (lt_add_one a.next).le
    | expire k t => exact (lt_add_one a.next).le
    | turnBack t => exact (lt_add_one a.next).le

/-- **The simulation rule for schedulers.** -/
theorem Same.run (hS : Serves serve R room) (inputs : List (Input ι)) {s : Simulator ι γ}
    {t : Simulator ι (List Event)} {a : Agenda (Job ι) ℚ} (h : Same R s t) (ht : Sound t a)
    (hx : ∀ x ∈ inputs, x.NonNeg) (hroom : ∀ u < t.sched.uid_ + inputs.length, room u) :
    Agree (Same R) (Simulation.run (Simulator.step serve) s inputs)
      (Simulation.run (Simulator.step ListScheduler.serve) t inputs) := by
  induction inputs generalizing s t a with
  | nil => exact Option.Rel.some ⟨h, rfl⟩
  | cons x inputs ih =>
    rw [List.length_cons] at hroom
    push_cast at hroom
    have hx' := hx x List.mem_cons_self
    have hstep := h.step hS ht hx' (hroom _ (by omega))
    simp only [Simulation.run]
    by_cases hm : t.Misuse x
    · rw [Simulator.step_misuse hm] at hstep ⊢
      cases hs : s.step serve x with
      | none => exact Option.Rel.none
      | some r => rw [hs] at hstep; cases hstep
    · obtain ⟨t', n, ht', -, hsound⟩ := ht.step hx' hm
      have huid : t'.sched.uid_ ≤ t.sched.uid_ + 1 := by
        rw [← hsound.armed.filed.next, ← ht.armed.filed.next]
        exact next_act_le a n.action
      rw [ht'] at hstep ⊢
      cases hs : s.step serve x with
      | none => rw [hs] at hstep; cases hstep
      | some r =>
        rw [hs] at hstep
        cases hstep with
        | some hab =>
          obtain ⟨s', n'⟩ := r
          obtain ⟨hsame, hn⟩ := hab
          simp only at hsame hn
          subst hn
          refine (ih hsame hsound (fun y hy => hx y (List.mem_cons_of_mem x hy)) ?_).map (n' :: ·)
          intro u hu
          exact hroom u (by omega)

end Ns2.Common
