import Ns2.Common.Timers
import Ns2.Lib.Simulation

/-!
# The timers expire when they are due

* `Sound.step` — what each step keeps.
* `simulation_keeps_agenda` — every run of the simulator is a run of its agenda.
* `simulation_aborts_iff` — a simulation aborts when `sched` is called for a timer that is not
  idle or `cancel` for one that is not pending, and only then.
* `dispatched_when_due`, `pending_until_due` — a job is dispatched at the time of its last
  scheduling, and no setting of a timer is lost.
-/

namespace Ns2.Common

open Agenda

variable {ι : Type*} [DecidableEq ι] {s : Simulator ι (List Event)} {a : Agenda (Job ι) ℚ}

/-- Delays are not negative. -/
def Input.NonNeg : Input ι → Prop
  | .call (.sched _ delay) => 0 ≤ delay
  | .call (.resched _ delay) => 0 ≤ delay
  | _ => True

/-- `sched` is called for a timer that is not idle, or `cancel` for one that is not pending. -/
def Simulator.Misuse {γ : Type*} (s : Simulator ι γ) : Input ι → Prop
  | .call (.sched i _) => s.control ≠ .loop ∧ s.status_ i ≠ .idle
  | .call (.cancel i) => s.control ≠ .loop ∧ s.status_ i ≠ .pending
  | _ => False

theorem Simulator.step_misuse {γ : Type*} {serve : Serve γ} {s : Simulator ι γ} {x : Input ι}
    (h : s.Misuse x) : s.step serve x = none := by
  cases x with
  | call c =>
    cases c with
    | sched i delay =>
      obtain ⟨hc, hi⟩ := h
      rw [Simulator.step, if_neg hc, Simulator.call, Simulator.schedTimer, if_pos hi]
      rfl
    | cancel i =>
      obtain ⟨hc, hi⟩ := h
      rw [Simulator.step, if_neg hc, Simulator.call, Simulator.cancelTimer, if_pos hi]
      rfl
    | resched i delay => exact absurd h not_false
    | forceCancel i => exact absurd h not_false
    | atCommand t => exact absurd h not_false
    | atNow => exact absurd h not_false
    | halt => exact absurd h not_false
  | run => exact absurd h not_false
  | resume => exact absurd h not_false
  | iterate => exact absurd h not_false
  | «return» => exact absurd h not_false

theorem Sound.call (h : Sound s a) (hc : s.control ≠ .loop) {c : Call ι} (hx : (Input.call c).NonNeg)
    (hm : ¬ s.Misuse (.call c)) : Follows a (s.call ListScheduler.serve c) := by
  cases c with
  | sched i delay =>
    refine h.schedTimer hx ?_
    by_contra hi
    exact hm ⟨hc, hi⟩
  | resched i delay => exact h.reschedTimer hx
  | cancel i =>
    have hi : s.status_ i = .pending := by
      by_contra hi
      exact hm ⟨hc, hi⟩
    rw [Simulator.call, Simulator.cancelTimer, if_neg (not_not.mpr hi)]
    exact h.clear hi
  | forceCancel i => exact h.forceCancel
  | atCommand t => exact h.atCommand t
  | atNow => exact h.scheduleAt le_rfl
  | halt =>
    have hhalt : Sound { s with halted_ := true } a :=
      ⟨⟨h.armed.filed, h.armed.event_, h.armed.off⟩, h.timely, h.nonneg, h.pending, h.handling⟩
    exact hhalt.quiet rfl rfl

/-- Every step that is no misuse of a timer keeps the agenda. -/
theorem Sound.step (h : Sound s a) {x : Input ι} (hx : x.NonNeg) (hm : ¬ s.Misuse x) :
    Follows a (s.step ListScheduler.serve x) := by
  have hidle : s.control = .main → ∀ c i, s.status_ i = .handling → c = Control.handler (.timer i) := by
    intro hc c i hi
    have := h.handling i hi
    rw [hc] at this
    cases this
  cases x with
  | call c =>
    rw [Simulator.step]
    split
    · exact h.quiet rfl rfl
    · rename_i hc
      exact h.call hc hx hm
  | run =>
    rw [Simulator.step]
    split
    · rename_i hc
      have hclock := h.armed.filed.clock
      have hallows : a.Allows (.turnBack 0) := h.nonneg.trans_eq hclock.symm
      obtain ⟨-, h2, h3, h4, h5, h6⟩ := h.armed.filed
      exact .act rfl rfl hallows ⟨⟨⟨rfl, h2, h3, h4, h5, h6⟩, h.armed.event_, h.armed.off⟩,
        h.timely.act hallows, le_rfl, h.pending, hidle hc .loop⟩
    · exact h.quiet rfl rfl
  | resume =>
    rw [Simulator.step]
    split
    · rename_i hc
      have hgo : Sound { s with halted_ := false, control := .loop } a :=
        ⟨⟨h.armed.filed, h.armed.event_, h.armed.off⟩, h.timely, h.nonneg, h.pending, hidle hc .loop⟩
      exact hgo.quiet rfl rfl
    · exact h.quiet rfl rfl
  | iterate =>
    rw [Simulator.step]
    split
    · rename_i hc
      exact h.iterate hc
    · exact h.quiet rfl rfl
  | «return» =>
    rw [Simulator.step]
    split
    · rename_i hd hc
      exact (h.leave hc).quiet rfl rfl
    · exact h.quiet rfl rfl

open Simulation

theorem Sound.run (inputs : List (Input ι)) {s s' : Simulator ι (List Event)} {a : Agenda (Job ι) ℚ}
    {notices : List (Notice ι)} (h : Sound s a) (hx : ∀ x ∈ inputs, x.NonNeg)
    (hrun : Simulation.run (Simulator.step ListScheduler.serve) s inputs = some (s', notices)) :
    a.Valid (notices.filterMap Notice.action) ∧
      Sound s' ((notices.filterMap Notice.action).foldl act a) := by
  induction inputs generalizing s a notices with
  | nil =>
    obtain ⟨rfl, rfl⟩ := Prod.mk.inj (Option.some.inj hrun)
    exact ⟨trivial, h⟩
  | cons x inputs ih =>
    simp only [Simulation.run, Option.bind_eq_some_iff, Option.map_eq_some_iff, Prod.mk.injEq] at hrun
    obtain ⟨r, hr, r', hr', rfl, rfl⟩ := hrun
    have hm : ¬ s.Misuse x := by
      intro hm
      rw [Simulator.step_misuse hm] at hr
      cases hr
    obtain ⟨s₁, n, hs₁, hvalid, hsound⟩ := h.step (hx x List.mem_cons_self) hm
    obtain rfl : r = (s₁, n) := Option.some.inj (hr.symm.trans hs₁)
    obtain ⟨h1, h2⟩ := ih hsound (fun y hy => hx y (List.mem_cons_of_mem x hy)) hr'
    have hsplit : (n :: r'.2).filterMap Notice.action =
        n.action.toList ++ r'.2.filterMap Notice.action := by
      cases hn : n.action with
      | none => rw [List.filterMap_cons_none hn]; rfl
      | some y => rw [List.filterMap_cons_some hn]; rfl
    rw [hsplit, List.foldl_append]
    exact ⟨(Run.allSteps_append _ _ _).mpr ⟨hvalid, h1⟩, h2⟩

omit [DecidableEq ι] in
theorem sound_new : Sound (Simulator.new [] : Simulator ι (List Event)) (empty 0 1) := by
  have hempty : ∀ e, e ∉ (Simulator.new [] : Simulator ι (List Event)).sched.queue := by
    simp [Simulator.new]
  refine ⟨⟨⟨rfl, rfl, ⟨List.Pairwise.nil, fun e he => absurd he (hempty e)⟩,
      ⟨one_pos, fun e he => absurd he (hempty e)⟩, ?_, fun e he => absurd he (hempty e)⟩,
    ?_, fun _ _ => le_rfl⟩, timely_empty 0 1, le_rfl, ?_, ?_⟩
  · intro k t n
    simp [empty, Simulator.new]
  · intro i t n h
    simp [empty] at h
  · intro i
    simp [empty, Simulator.new]
  · intro i h
    simp [Simulator.new] at h

/-- **Every run of the simulator is a run of its agenda.**  Whatever the handlers and the main
program call, with delays that are not negative: what is dispatched is each time the job that is
due first, among those of one time the one that was scheduled first, at its time; and a timer is
pending when it is due on the agenda. -/
theorem simulation_keeps_agenda (inputs : List (Input ι)) {s : Simulator ι (List Event)}
    {notices : List (Notice ι)} (hx : ∀ x ∈ inputs, x.NonNeg)
    (hrun : run (Simulator.step ListScheduler.serve) (Simulator.new []) inputs = some (s, notices)) :
    (empty 0 1 : Agenda (Job ι) ℚ).Valid (notices.filterMap Notice.action) ∧
      Sound s ((notices.filterMap Notice.action).foldl act (empty 0 1)) :=
  sound_new.run inputs hx hrun

/-- Two timers and a command; the handlers set both timers to the time 5, the later one first. -/
def twoTimers : List (Input Bool) :=
  [.call (.sched false 7), .call (.sched true 3), .call (.atCommand 4), .run,
    .iterate, .call (.resched true 2), .return, .iterate, .call (.resched false 1), .return,
    .iterate, .call (.forceCancel true), .return]

theorem nonNeg_twoTimers : ∀ x ∈ twoTimers, x.NonNeg := by
  simp [twoTimers, Input.NonNeg]

/-- What happens until both timers are set to the time 5. -/
def bothSet : List (Notice Bool) :=
  [.scheduled (.timer false) 7, .scheduled (.timer true) 3, .scheduled (.atEvent 3) 4,
    .restarted, .dispatched (.timer true) 3, .scheduled (.timer true) 5, .quiet,
    .dispatched (.atEvent 3) 4]

theorem notices_twoTimers :
    (run (Simulator.step ListScheduler.serve) (Simulator.new []) twoTimers).map Prod.snd =
      some (bothSet ++ [.scheduled (.timer false) 5, .quiet, .dispatched (.timer true) 5,
        .cancelled true, .quiet]) := by
  decide +kernel

theorem simulation_keeps_agenda_twoTimers :
    ∃ s notices, run (Simulator.step ListScheduler.serve) (Simulator.new []) twoTimers =
        some (s, notices) ∧
      Sound s ((notices.filterMap Notice.action).foldl act (empty 0 1)) := by
  obtain ⟨⟨s, notices⟩, hrun, -⟩ := Option.map_eq_some_iff.mp notices_twoTimers
  exact ⟨s, notices, hrun, (simulation_keeps_agenda twoTimers nonNeg_twoTimers hrun).2⟩

/-- **A simulation aborts by misuse of a timer only**: when `sched` is called for a timer that is
not idle, or `cancel` for one that is not pending. -/
theorem simulation_aborts_iff (inputs : List (Input ι)) (hx : ∀ x ∈ inputs, x.NonNeg) :
    run (Simulator.step ListScheduler.serve) (Simulator.new []) inputs = none ↔
      ∃ l₁ x l₂ r, inputs = l₁ ++ x :: l₂ ∧
        run (Simulator.step ListScheduler.serve) (Simulator.new []) l₁ = some r ∧ r.1.Misuse x := by
  rw [run_eq_none_iff]
  refine exists_congr fun l₁ => exists_congr fun x => exists_congr fun l₂ => exists_congr fun r => ?_
  refine and_congr_right fun hl => and_congr_right fun hr => ⟨fun hnone => ?_, Simulator.step_misuse⟩
  by_contra hm
  subst hl
  have hsound := (sound_new.run l₁ (fun y hy => hx y (List.mem_append_left _ hy)) hr).2
  obtain ⟨s', n, hs', -⟩ := hsound.step (hx x (List.mem_append_right _ List.mem_cons_self)) hm
  rw [hs'] at hnone
  cases hnone

/-- A timer is set a second time by `sched`. -/
theorem simulation_aborts_set_twice :
    ∃ l₁ x l₂ r, [.call (.sched false 1), .call (.resched false 2), .call (.sched false 3)] =
        l₁ ++ x :: l₂ ∧ run (Simulator.step ListScheduler.serve) (Simulator.new []) l₁ = some r ∧
      r.1.Misuse x :=
  (simulation_aborts_iff _ (by simp [Input.NonNeg])).mp
    (Option.map_eq_none_iff.mp (by decide +kernel : Option.map Prod.snd (run _ _ _) = none))

/-! ## What a timer does -/

omit [DecidableEq ι] in
/-- The job a notice is about. -/
def Notice.job : Notice ι → Option (Job ι)
  | .quiet => none
  | .restarted => none
  | .refused => none
  | .scheduled j _ => some j
  | .cancelled i => some (.timer i)
  | .dispatched j _ => some j

omit [DecidableEq ι] in
theorem Notice.job_action {n : Notice ι} {x : Action (Job ι) ℚ} (h : n.action = some x) :
    x.job = n.job := by
  cases n with
  | quiet => cases h
  | restarted => obtain rfl := Option.some.inj h; rfl
  | refused => cases h
  | scheduled j t => obtain rfl := Option.some.inj h; rfl
  | cancelled i => obtain rfl := Option.some.inj h; rfl
  | dispatched j t => obtain rfl := Option.some.inj h; rfl

omit [DecidableEq ι] in
theorem Notice.action_eq_set {n : Notice ι} {j : Job ι} {t : ℚ} (h : n.action = some (.set j t)) :
    n = .scheduled j t := by
  cases n with
  | scheduled j' t' =>
    obtain ⟨rfl, rfl⟩ := Action.set.inj (Option.some.inj h)
    rfl
  | quiet => cases h
  | restarted => cases h
  | refused => cases h
  | cancelled i => cases h
  | dispatched j' t' => cases h

/-- **A job is dispatched at the time of its last scheduling, and once.**  Between the two
nothing else happens to it. -/
theorem dispatched_when_due (inputs : List (Input ι)) {s : Simulator ι (List Event)}
    {before after : List (Notice ι)} {j : Job ι} {t : ℚ} (hx : ∀ x ∈ inputs, x.NonNeg)
    (hrun : run (Simulator.step ListScheduler.serve) (Simulator.new []) inputs =
      some (s, before ++ .dispatched j t :: after)) :
    ∃ p q, before = p ++ .scheduled j t :: q ∧ ∀ n ∈ q, n.job ≠ some j := by
  have hvalid := (simulation_keeps_agenda inputs hx hrun).1
  rw [List.filterMap_append, List.filterMap_cons_some (show Notice.action (.dispatched j t) = _ from rfl),
    List.append_cons] at hvalid
  obtain ⟨hvalid, -⟩ := (Run.allSteps_append _ _ _).mp hvalid
  obtain ⟨l₁, l₂, hl, hl₂⟩ := Valid.set_of_expire rfl hvalid
  obtain ⟨p, q₀, rfl, rfl, hq₀⟩ := List.filterMap_eq_append_iff.mp hl
  obtain ⟨q₁, n, q, rfl, hq₁, hn, rfl⟩ := List.filterMap_eq_cons_iff.mp hq₀
  obtain rfl := Notice.action_eq_set hn
  refine ⟨p ++ q₁, q, by simp, fun m hm hmj => ?_⟩
  cases hma : m.action with
  | none =>
    cases m with
    | quiet => cases hmj
    | restarted => cases hmj
    | refused => cases hmj
    | scheduled j' t' => cases hma
    | cancelled i => cases hma
    | dispatched j' t' => cases hma
  | some x =>
    refine hl₂ x (List.mem_filterMap.mpr ⟨m, hm, hma⟩) ?_
    rw [Notice.job_action hma, hmj]

/-- The first timer of the two expires at the time its handler has set it to. -/
theorem dispatched_when_due_twoTimers :
    ∃ p q, bothSet ++ [.scheduled (.timer false) 5, .quiet] = p ++ .scheduled (.timer true) 5 :: q ∧
      ∀ n ∈ q, n.job ≠ some (.timer true) := by
  obtain ⟨⟨s, notices⟩, hrun, hnotices⟩ := Option.map_eq_some_iff.mp notices_twoTimers
  simp only at hnotices
  subst hnotices
  exact dispatched_when_due twoTimers nonNeg_twoTimers (t := 5) (hrun.trans (by rw [List.append_assoc]; rfl))

/-- **No setting of a timer is lost.**  Until something else happens to it, a timer that has been
set is pending, its event is the one event of it in the queue, and the clock has not passed its
time; so when the queue is empty, every timer that was set has been dispatched, cancelled or set
again. -/
theorem pending_until_due (inputs : List (Input ι)) {s : Simulator ι (List Event)}
    {before after : List (Notice ι)} {i : ι} {t : ℚ} (hx : ∀ x ∈ inputs, x.NonNeg)
    (hrun : run (Simulator.step ListScheduler.serve) (Simulator.new []) inputs =
      some (s, before ++ .scheduled (.timer i) t :: after))
    (hafter : ∀ n ∈ after, n.job ≠ some (.timer i)) :
    s.status_ i = .pending ∧ s.clock_ ≤ t ∧ (s.event_ i).time_ = t ∧ s.event_ i ∈ s.sched.queue := by
  obtain ⟨hvalid, hsound⟩ := simulation_keeps_agenda inputs hx hrun
  rw [List.filterMap_append,
    List.filterMap_cons_some (show Notice.action (.scheduled (.timer i) t) = _ from rfl)] at hvalid hsound
  obtain ⟨⟨n, hdue⟩, hclock⟩ := hvalid.due_of_set (timely_empty 0 1) (k := Job.timer i) fun x hxm => by
    obtain ⟨m, hm, hma⟩ := List.mem_filterMap.mp hxm
    rw [Notice.job_action hma]
    exact hafter m hm
  have hevent := hsound.armed.event_ i t n hdue
  refine ⟨(hsound.pending i).mpr (by rw [hdue]; rfl), hsound.armed.filed.clock.symm.trans_le hclock, ?_, ?_⟩
  · rw [hevent]
  · rw [hevent]
    exact ((hsound.armed.filed.due _ t n).mp hdue).1

/-- The second timer of the two is still pending at the end. -/
theorem pending_until_due_twoTimers :
    ∃ s notices, run (Simulator.step ListScheduler.serve) (Simulator.new []) twoTimers =
        some (s, notices) ∧ s.status_ false = .pending ∧ s.clock_ ≤ 5 ∧
      (s.event_ false).time_ = 5 ∧ s.event_ false ∈ s.sched.queue := by
  obtain ⟨⟨s, notices⟩, hrun, hnotices⟩ := Option.map_eq_some_iff.mp notices_twoTimers
  simp only at hnotices
  subst hnotices
  exact ⟨s, _, hrun, pending_until_due twoTimers (t := 5) nonNeg_twoTimers hrun
    (by simp [Notice.job])⟩

end Ns2.Common
