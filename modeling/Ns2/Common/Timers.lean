import Ns2.Common.Filed

/-!
# Each call keeps the agenda

* `Armed` — a timer's event is the one that is filed.
* `Sound` — besides, a timer is pending when it is due, and nothing is due before the clock.
* `Sound.schedTimer`, `reschedTimer`, `clear`, `forceCancel`, `scheduleAt`, `iterate`, `leave` —
  what the calls, and the loop of `run`, do to the agenda.
-/

namespace Ns2.Common

open Stable Agenda

variable {ι : Type*} [DecidableEq ι]

/-- The queue holds the jobs of an agenda, and a timer's event is the one that is filed. -/
structure Armed (s : Simulator ι (List Event)) (a : Agenda (Job ι) ℚ) : Prop where
  /-- The queue. -/
  filed : Filed s.clock_ s.sched s.handler_ a
  /-- The event of a timer that is due. -/
  event_ : ∀ i t n, a.due (.timer i) = some (t, n) → s.event_ i = ⟨n, t⟩
  /-- The event of another timer may be scheduled. -/
  off : ∀ i, a.due (.timer i) = none → (s.event_ i).uid_ ≤ 0

/-- The simulator keeps an agenda. -/
structure Sound (s : Simulator ι (List Event)) (a : Agenda (Job ι) ℚ) : Prop where
  /-- The queue and the events. -/
  armed : Armed s a
  /-- Nothing is due before the clock. -/
  timely : a.Timely
  /-- The clock. -/
  nonneg : 0 ≤ s.clock_
  /-- A timer is pending when it is due. -/
  pending : ∀ i, s.status_ i = .pending ↔ (a.due (.timer i)).isSome
  /-- A timer is handled while its handler runs. -/
  handling : ∀ i, s.status_ i = .handling → s.control = .handler (.timer i)

variable {s : Simulator ι (List Event)} {a : Agenda (Job ι) ℚ} {i : ι}

omit [DecidableEq ι] in
theorem Armed.schedule (h : Armed s a) (hd : Handler ι) {e : Event} (he : e.uid_ ≤ 0) (delay : ℚ) :
    s.schedule ListScheduler.serve hd e delay =
      some ({ s with
        sched := ⟨s.sched.uid_ + 1,
          ListScheduler.insert s.sched.queue ⟨s.sched.uid_, s.clock_ + delay⟩⟩
        handler_ := Function.update s.handler_ s.sched.uid_ (some hd) },
        ⟨s.sched.uid_, s.clock_ + delay⟩) := by
  have hpos := h.filed.pos.1
  rw [Simulator.schedule, if_neg (by omega), if_neg (by omega)]
  rfl

/-- `_sched` of a timer that is not due. -/
theorem Armed.schedEvent (h : Armed s a) (hnone : a.due (.timer i) = none) (delay : ℚ) :
    ∃ s', s.schedEvent ListScheduler.serve i delay = some s' ∧
      Armed s' (a.act (.set (.timer i) (s.clock_ + delay))) ∧
      s'.status_ = s.status_ ∧ s'.control = s.control ∧ s'.clock_ = s.clock_ := by
  rw [Simulator.schedEvent, h.schedule (.timer i) (h.off i hnone) delay]
  refine ⟨_, rfl, ⟨h.filed.schedule (.timer i) _ hnone, fun j t n hj => ?_, fun j hj => ?_⟩,
    rfl, rfl, rfl⟩
  · by_cases hji : j = i
    · subst hji
      simp only [act, Function.update_self, Option.some.injEq, Prod.mk.injEq] at hj ⊢
      rw [← hj.1, ← hj.2, h.filed.next]
    · simp only [act, ne_eq, Job.timer.injEq, hji, not_false_eq_true, Function.update_of_ne] at hj ⊢
      exact h.event_ j t n hj
  · by_cases hji : j = i
    · subst hji
      simp [act] at hj
    · simp only [act, ne_eq, Job.timer.injEq, hji, not_false_eq_true, Function.update_of_ne] at hj ⊢
      exact h.off j hj

/-- `_cancel` of a timer that is due. -/
theorem Armed.cancelEvent (h : Armed s a) (hsome : (a.due (.timer i)).isSome) :
    ∃ s', s.cancelEvent ListScheduler.serve i = some s' ∧ Armed s' (a.act (.clear (.timer i))) ∧
      s'.status_ = s.status_ ∧ s'.control = s.control ∧ s'.clock_ = s.clock_ := by
  obtain ⟨⟨t, n⟩, hdue⟩ := Option.isSome_iff_exists.mp hsome
  obtain ⟨hserve, hfiled⟩ := h.filed.cancel hdue
  have hpos : 0 < n := h.filed.pos.2 _ ((h.filed.due _ t n).mp hdue).1
  rw [Simulator.cancelEvent, h.event_ i t n hdue, hserve]
  refine ⟨_, rfl, ⟨hfiled, fun j t' n' hj => ?_, fun j hj => ?_⟩, rfl, rfl, rfl⟩
  · by_cases hji : j = i
    · subst hji
      simp [act] at hj
    · simp only [act, ne_eq, Job.timer.injEq, hji, not_false_eq_true, Function.update_of_ne] at hj ⊢
      exact h.event_ j t' n' hj
  · by_cases hji : j = i
    · subst hji
      simp only [Function.update_self, Option.getD_some]
      omega
    · simp only [act, ne_eq, Job.timer.injEq, hji, not_false_eq_true, Function.update_of_ne] at hj ⊢
      exact h.off j hj

/-- The step is possible on the agenda, which the simulator still keeps. -/
def Follows (a : Agenda (Job ι) ℚ) (r : Option (Simulator ι (List Event) × Notice ι)) : Prop :=
  ∃ s' n, r = some (s', n) ∧ a.Valid n.action.toList ∧ Sound s' (n.action.toList.foldl act a)

/-- A step with one action. -/
theorem Follows.act {r : Option (Simulator ι (List Event) × Notice ι)} {s' : Simulator ι (List Event)}
    {n : Notice ι} {x : Action (Job ι) ℚ} (hr : r = some (s', n)) (hn : n.action = some x)
    (hx : a.Allows x) (h : Sound s' (a.act x)) : Follows a r := by
  refine ⟨s', n, hr, ?_, ?_⟩
  · rw [hn]
    exact ⟨hx, trivial⟩
  · rwa [hn]

namespace Sound

omit [DecidableEq ι] in
theorem due_none (h : Sound s a) (hi : s.status_ i ≠ .pending) : a.due (.timer i) = none := by
  rw [← Option.not_isSome_iff_eq_none, ← h.pending i]
  exact hi

/-- Nothing has happened to the agenda. -/
theorem quiet {r : Option (Simulator ι (List Event) × Notice ι)} {n : Notice ι} (h : Sound s a)
    (hr : r = some (s, n)) (hn : n.action = none) : Follows a r := by
  refine ⟨s, n, hr, ?_, ?_⟩
  · rw [hn]
    trivial
  · rwa [hn]

/-- A timer has a new status after it has been set, or cleared. -/
theorem setStatus (h : Sound s a) {s' : Simulator ι (List Event)} {x : Action (Job ι) ℚ}
    {status : TimerStatus} (harmed : Armed s' (a.act x)) (hstatus : s'.status_ = s.status_)
    (hcontrol : s'.control = s.control) (hclock : s'.clock_ = s.clock_) (hx : x.job = some (.timer i))
    (hallows : a.Allows x) (hpend : status = .pending ↔ ((a.act x).due (.timer i)).isSome)
    (hne : status ≠ .handling) : Sound (s'.setStatus i status) (a.act x) := by
  refine ⟨⟨harmed.filed, harmed.event_, harmed.off⟩, h.timely.act hallows, ?_, fun j => ?_, fun j hj => ?_⟩
  · exact h.nonneg.trans_eq hclock.symm
  · by_cases hji : j = i
    · subst hji
      simpa [Simulator.setStatus] using hpend
    · have hjob : x.job ≠ some (.timer j) := by simp [hx, Ne.symm hji]
      simp only [Simulator.setStatus, ne_eq, hji, not_false_eq_true, Function.update_of_ne, hstatus,
        due_act_of_job_ne hjob]
      exact h.pending j
  · by_cases hji : j = i
    · subst hji
      simp only [Simulator.setStatus, Function.update_self] at hj
      exact absurd hj hne
    · simp only [Simulator.setStatus, ne_eq, hji, not_false_eq_true, Function.update_of_ne, hstatus] at hj
      exact hcontrol.trans (h.handling j hj)

/-- A timer is set, by `_sched` and an assignment to its status. -/
theorem set (h : Sound s a) {r : Option (Simulator ι (List Event))} {s' : Simulator ι (List Event)}
    {t : ℚ} (hr : r = some s') (harmed : Armed s' (a.act (.set (.timer i) t)))
    (hsame : s'.status_ = s.status_ ∧ s'.control = s.control ∧ s'.clock_ = s.clock_)
    (ht : s.clock_ ≤ t) :
    Follows a ((r.map (·.setStatus i .pending)).map (·, .scheduled (.timer i) t)) := by
  have hallows : a.Allows (.set (.timer i) t) := h.armed.filed.clock.trans_le ht
  refine .act (by rw [hr]; rfl) rfl hallows ?_
  exact h.setStatus harmed hsame.1 hsame.2.1 hsame.2.2 rfl hallows (by simp [act]) (by simp)

/-- A timer is cleared, by `_cancel` and an assignment to its status. -/
theorem clear (h : Sound s a) (hi : s.status_ i = .pending) :
    Follows a (((s.cancelEvent ListScheduler.serve i).map (·.setStatus i .idle)).map
      (·, .cancelled i)) := by
  obtain ⟨s', hs', harmed, h1, h2, h3⟩ := h.armed.cancelEvent ((h.pending i).mp hi)
  refine .act (x := .clear (.timer i)) (by rw [hs']; rfl) rfl trivial ?_
  exact h.setStatus harmed h1 h2 h3 rfl trivial (by simp [act]) (by simp)

theorem schedTimer (h : Sound s a) {delay : ℚ} (hd : 0 ≤ delay) (hi : s.status_ i = .idle) :
    Follows a (s.call ListScheduler.serve (.sched i delay)) := by
  obtain ⟨s', hs', harmed, hsame⟩ := h.armed.schedEvent (h.due_none (i := i) (by simp [hi])) delay
  rw [Simulator.call, Simulator.schedTimer, if_neg (not_not.mpr hi)]
  exact h.set hs' harmed hsame (by linarith)

theorem reschedTimer (h : Sound s a) {delay : ℚ} (hd : 0 ≤ delay) :
    Follows a (s.call ListScheduler.serve (.resched i delay)) := by
  rw [Simulator.call, Simulator.reschedTimer]
  by_cases hi : s.status_ i = .pending
  · obtain ⟨s₁, hs₁, harmed₁, h1, h2, h3⟩ := h.armed.cancelEvent ((h.pending i).mp hi)
    obtain ⟨s₂, hs₂, harmed₂, h4, h5, h6⟩ := harmed₁.schedEvent (i := i) (by simp [act]) delay
    rw [if_pos hi, hs₁, Option.bind_some]
    -- the setting of a job that is cleared is that of the job
    have hact : (a.act (.clear (.timer i))).act (.set (.timer i) (s₁.clock_ + delay)) =
        a.act (.set (.timer i) (s.clock_ + delay)) := by
      simp only [act, Function.update_idem, h3]
    rw [hact] at harmed₂
    exact h.set hs₂ harmed₂ ⟨h4.trans h1, h5.trans h2, h6.trans h3⟩ (by linarith)
  · obtain ⟨s', hs', harmed, hsame⟩ := h.armed.schedEvent (h.due_none hi) delay
    rw [if_neg hi, Option.bind_some]
    exact h.set hs' harmed hsame (by linarith)

theorem forceCancel (h : Sound s a) :
    Follows a (s.call ListScheduler.serve (.forceCancel i)) := by
  rw [Simulator.call, Simulator.forceCancel]
  by_cases hi : s.status_ i = .pending
  · rw [if_pos hi]
    exact h.clear hi
  · rw [if_neg hi]
    have hact : a.act (.clear (.timer i)) = a := by
      simp only [act, ← h.due_none hi, Function.update_eq_self]
    exact .act (x := .clear (.timer i)) rfl rfl trivial (by rwa [hact])

/-! ## Commands and the loop -/

theorem scheduleAt (h : Sound s a) {delay : ℚ} (hd : 0 ≤ delay) :
    Follows a (s.scheduleAt ListScheduler.serve delay) := by
  have hnew : a.due (.atEvent s.sched.uid_) = none := by
    rw [Option.eq_none_iff_forall_ne_some]
    rintro ⟨t, n⟩ hdue
    obtain ⟨hmem, hjob⟩ := (h.armed.filed.due _ t n).mp hdue
    have hlt := h.armed.filed.inOrder.fresh _ hmem
    obtain ⟨hd, hh, hk⟩ := Option.map_eq_some_iff.mp hjob
    cases hd with
    | timer i => cases hk
    | atHandler =>
      obtain rfl : s.sched.uid_ = n := (Job.atEvent.inj hk).symm
      exact lt_irrefl _ hlt
  have hallows : a.Allows (.set (.atEvent s.sched.uid_) (s.clock_ + delay)) := by
    simp only [Allows, h.armed.filed.clock]
    linarith
  have hdue : ∀ j, (a.act (.set (.atEvent s.sched.uid_) (s.clock_ + delay))).due (.timer j) =
      a.due (.timer j) := fun j => due_act_of_job_ne (by simp [Action.job])
  rw [Simulator.scheduleAt, h.armed.schedule .atHandler (e := ⟨0, 0⟩) le_rfl delay]
  refine .act rfl rfl hallows ⟨⟨h.armed.filed.schedule .atHandler _ hnew, ?_, ?_⟩,
    h.timely.act hallows, h.nonneg, ?_, h.handling⟩
  · exact fun j t n hj => h.armed.event_ j t n ((hdue j).symm.trans hj)
  · exact fun j hj => h.armed.off j ((hdue j).symm.trans hj)
  · intro j
    rw [h.pending j, ← hdue j]

theorem atCommand (h : Sound s a) (t : ℚ) : Follows a (s.atCommand ListScheduler.serve t) := by
  rw [Simulator.atCommand]
  by_cases hd : (if t < 0 then -t else t - s.clock_) < 0
  · rw [if_pos hd]
    exact h.quiet rfl rfl
  · rw [if_neg hd]
    exact h.scheduleAt (not_lt.mp hd)

omit [DecidableEq ι] in
/-- The control is not in the handler of a timer that is not handled any more. -/
theorem control (h : Sound s a) {c : Control ι} (hc : ∀ i, s.status_ i = .handling → c = .handler (.timer i)) :
    Sound { s with control := c } a :=
  ⟨⟨h.armed.filed, h.armed.event_, h.armed.off⟩, h.timely, h.nonneg, h.pending, hc⟩

/-- The job of the event at the head of the queue expires. -/
theorem dispatch (h : Sound s a) (hc : s.control = .loop) {e : Event} {l : List Event}
    (hq : s.sched.queue = e :: l) :
    Follows a ({ s with sched := ⟨s.sched.uid_, l⟩ }.dispatch e) := by
  have hmem : e ∈ s.sched.queue := hq ▸ List.mem_cons_self
  obtain ⟨hd, hhd⟩ := Option.isSome_iff_exists.mp (h.armed.filed.handled e hmem)
  have hk : (s.handler_ e.uid_).map (·.job e.uid_) = some (hd.job e.uid_) := by rw [hhd]; rfl
  have hdue := (h.armed.filed.due _ e.time_ e.uid_).mpr ⟨hmem, hk⟩
  have hfirst := h.armed.filed.isFirst hq hk
  have hfiled := h.armed.filed.deque hq hk
  have hclock : s.clock_ ≤ e.time_ := h.armed.filed.clock.symm.trans_le (h.timely.clock_le _ _ _ hdue)
  -- no timer is handled at the head of the loop
  have hidle : ∀ j, s.status_ j ≠ .handling := by
    intro j hj
    have := h.handling j hj
    rw [hc] at this
    cases this
  have htimely : (a.act (.expire (hd.job e.uid_) e.time_)).Timely := h.timely.act hfirst
  rw [Simulator.dispatch, if_neg (not_lt.mpr hclock)]
  simp only [hhd, Option.bind_some]
  cases hd with
  | timer i =>
    simp only [Handler.job] at hdue hfirst hfiled htimely ⊢
    have hpend : s.status_ i = .pending := (h.pending i).mpr (by rw [hdue]; rfl)
    have hother : ∀ j, j ≠ i → (a.act (.expire (.timer i) e.time_)).due (.timer j) = a.due (.timer j) :=
      fun j hj => due_act_of_job_ne (by simp [Action.job, Ne.symm hj])
    rw [Simulator.enter, Simulator.handle, if_neg (by simp [hpend])]
    refine .act rfl rfl hfirst ⟨⟨hfiled, fun j t n hj => ?_, fun j hj => ?_⟩, htimely,
      h.nonneg.trans hclock, fun j => ?_, fun j hj => ?_⟩
    · by_cases hji : j = i
      · subst hji
        simp [act] at hj
      · rw [hother j hji] at hj
        simp only [Simulator.setStatus, ne_eq, hji, not_false_eq_true, Function.update_of_ne]
        exact h.armed.event_ j t n hj
    · by_cases hji : j = i
      · subst hji
        have := h.armed.filed.pos.2 e hmem
        simp only [Simulator.setStatus, Function.update_self]
        omega
      · rw [hother j hji] at hj
        simp only [Simulator.setStatus, ne_eq, hji, not_false_eq_true, Function.update_of_ne]
        exact h.armed.off j hj
    · by_cases hji : j = i
      · subst hji
        simp [Simulator.setStatus, act]
      · simp only [Simulator.setStatus, ne_eq, hji, not_false_eq_true, Function.update_of_ne,
          hother j hji]
        exact h.pending j
    · by_cases hji : j = i
      · rw [hji]
        rfl
      · simp only [Simulator.setStatus, ne_eq, hji, not_false_eq_true, Function.update_of_ne] at hj
        exact absurd hj (hidle j)
  | atHandler =>
    simp only [Handler.job] at hdue hfirst hfiled htimely ⊢
    have hother : ∀ j, (a.act (.expire (.atEvent e.uid_) e.time_)).due (.timer j) = a.due (.timer j) :=
      fun j => due_act_of_job_ne (by simp [Action.job])
    refine .act rfl rfl hfirst ⟨⟨hfiled, fun j t n hj => ?_, fun j hj => ?_⟩, htimely,
      h.nonneg.trans hclock, fun j => ?_, fun j hj => absurd hj (hidle j)⟩
    · exact h.armed.event_ j t n ((hother j).symm.trans hj)
    · exact h.armed.off j ((hother j).symm.trans hj)
    · rw [hother j]
      exact h.pending j

theorem iterate (h : Sound s a) (hc : s.control = .loop) :
    Follows a (s.iterate ListScheduler.serve) := by
  have hidle : ∀ c i, s.status_ i = .handling → c = Control.handler (.timer i) := by
    intro c i hi
    have := h.handling i hi
    rw [hc] at this
    cases this
  rw [Simulator.iterate]
  by_cases hh : s.halted_ = true
  · rw [if_pos hh]
    exact (h.control (hidle .main)).quiet rfl rfl
  rw [if_neg hh]
  cases hq : s.sched.queue with
  | nil =>
    have hsched : s.sched = ⟨s.sched.uid_, []⟩ := by rw [← hq]
    simp only [ListScheduler.serve, ListScheduler.deque, hq, Option.bind_some]
    rw [← hsched]
    exact (h.control (hidle .main)).quiet rfl rfl
  | cons e l =>
    simp only [ListScheduler.serve, ListScheduler.deque, hq, Option.bind_some]
    exact h.dispatch hc hq

/-- The handler that runs returns. -/
theorem leave (h : Sound s a) {hd : Handler ι} (hc : s.control = .handler hd) :
    Sound (s.leave hd) a := by
  cases hd with
  | timer i =>
    have hother : ∀ j, j ≠ i → s.status_ j ≠ .handling := by
      intro j hji hj
      have := h.handling j hj
      rw [hc, Control.handler.injEq, Handler.timer.injEq] at this
      exact hji this.symm
    rw [Simulator.leave, Simulator.handled]
    by_cases hi : s.status_ i = .handling
    · rw [if_pos hi]
      refine ⟨⟨h.armed.filed, h.armed.event_, h.armed.off⟩, h.timely, h.nonneg, fun j => ?_, fun j hj => ?_⟩
      · by_cases hji : j = i
        · subst hji
          simp [Simulator.setStatus, h.due_none (i := j) (by simp [hi])]
        · simp only [Simulator.setStatus, ne_eq, hji, not_false_eq_true, Function.update_of_ne]
          exact h.pending j
      · by_cases hji : j = i
        · subst hji
          simp [Simulator.setStatus] at hj
        · simp only [Simulator.setStatus, ne_eq, hji, not_false_eq_true, Function.update_of_ne] at hj
          exact absurd hj (hother j hji)
    · rw [if_neg hi]
      refine h.control fun j hj => ?_
      by_cases hji : j = i
      · exact absurd (hji ▸ hj) hi
      · exact absurd hj (hother j hji)
  | atHandler =>
    refine h.control fun j hj => ?_
    have := h.handling j hj
    rw [hc] at this
    cases this

end Sound

end Ns2.Common
